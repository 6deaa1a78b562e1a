import EchoLink.Simulation
import EchoLink.VoiceService

/-!
# Streams of the voice service

What reaches a listener over whole runs of the voice service, in whatever order
its events come.

* What is heard of a speaker is what the line of the speaker played, and what it
  played was received (`path_line`); so a stream that arrives in order is heard
  in order, no frame altered, repeated or made up (`stream_in_order`).
* A frame that is heard was received with the slot of a member who sits in the
  same room and is not muted (`hear_roommates`).
* A steady stream is heard without a gap, with a delay of four ticks
  (`steady_stream_delay`).
-/

namespace EchoLink

open CText Simulation Playout

variable {b : Fin maxClients → UInt32} {reserved : Set Nat} {v v' : Voice} {e : VoiceEvent} {es : List VoiceEvent}
  {out outs : List VoiceOut} {i j : Fin maxClients} {sender : UInt32} {k : Nat}

/-! ### The line of a speaker -/

/-- What a part of a run means for the line of a speaker: the calls, what they
took of the packets received, and what is heard of what they played. -/
structure LineRun (b : Fin maxClients → UInt32) (i : Fin maxClients) (v : Voice) (es : List VoiceEvent)
    (outs : List VoiceOut) (v' : Voice) (cs : List (Call Packet)) : Prop where
  calls : Calls (Packet.place (b i)) jitterBufferSize playoutCushion (v.lines i) cs (v'.lines i)
  received : (arrived cs ++ v'.pendingOf i).Sublist (v.pendingOf i ++ packetsOf i es)
  heard : ∀ j, (heardFrom i j outs).Sublist ((played cs).map Packet.pcm)

/-- Nothing happens to the line. -/
theorem LineRun.quiet (hlines : v'.lines i = v.lines i)
    (hpending : (v'.pendingOf i).Sublist (v.pendingOf i ++ packetsOf i es)) (hheard : ∀ j, heardFrom i j outs = []) :
    LineRun b i v es outs v' [] where
  calls := by
    rw [hlines]
    exact Calls.nil _
  received := hpending
  heard := by
    intro j
    rw [hheard j]
    exact List.nil_sublist _

theorem pendingOf_cons {w : Voice} {p : Packet} {rest : List (UInt32 × Packet)}
    (h : v.pending = (sender, p) :: rest) (hw : w.pending = rest) :
    v.pendingOf i = if slotNamed sender = some i then p :: w.pendingOf i else w.pendingOf i := by
  rw [Voice.pendingOf, Voice.pendingOf, h, hw, List.filterMap_cons]
  by_cases hnamed : slotNamed sender = some i
  · simp [hnamed]
  · simp [hnamed]

/-- **One step**, for the line of a speaker. -/
theorem step_line (hok : v.chat.Ok reserved) (h : v.Step b reserved e out v') (i : Fin maxClients) :
    ∃ cs, LineRun b i v [e] out v' cs := by
  cases h with
  | chat e =>
      refine ⟨[], LineRun.quiet rfl (List.sublist_append_left _ _) ?_⟩
      intro j
      exact heardFrom_responses i j _
  | packet sender p room =>
      refine ⟨[], LineRun.quiet rfl ?_ fun _ => rfl⟩
      have hpending : Voice.pendingOf { v with pending := v.pending ++ [(sender, p)] } i =
          v.pendingOf i ++ packetsOf i [.packet sender p] := List.filterMap_append
      rw [hpending]
  | dropped sender p full => exact ⟨[], LineRun.quiet rfl (List.sublist_append_left _ _) fun _ => rfl⟩
  | @file sender p rest i' line first named push =>
      have hpending := pendingOf_cons (i := i) (w := ⟨v.chat, rest, Function.update v.lines i' line⟩) first rfl
      by_cases hi : i' = i
      · subst hi
        rw [if_pos named] at hpending
        refine ⟨[.push p], ?_, ?_, fun _ => List.nil_sublist _⟩
        · apply Calls.push push
          dsimp only
          rw [Function.update_self]
          exact Calls.nil _
        · rw [hpending]
          exact List.sublist_append_left _ _
      · have hother : slotNamed sender ≠ some i := by
          rw [named]
          exact fun heq => hi (Option.some.inj heq)
        rw [if_neg hother] at hpending
        refine ⟨[], LineRun.quiet (Function.update_of_ne (Ne.symm hi) _ _) ?_ fun _ => rfl⟩
        rw [hpending]
        exact List.sublist_append_left _ _
  | @discard sender p rest first unknown =>
      have hpending := pendingOf_cons (i := i) (w := ⟨v.chat, rest, v.lines⟩) first rfl
      have hother : slotNamed sender ≠ some i := by simp [unknown]
      rw [if_neg hother] at hpending
      refine ⟨[], LineRun.quiet rfl ?_ fun _ => rfl⟩
      rw [hpending]
      exact List.sublist_append_left _ _
  | @mix k R drawn lines room draws =>
      have hnodup := hok.distinct R (List.mem_of_getElem? room)
      by_cases hspeaks : i ∈ R.members ∧ v.chat.Unmuted i
      · refine ⟨[.pop (drawn i)], Calls.pop (draws.speaks i hspeaks.1 hspeaks.2) (Calls.nil _), ?_, ?_⟩
        · exact List.sublist_append_left _ _
        · intro j
          rw [heardFrom_mixed hnodup]
          split
          · have hplayed : played [Call.pop (drawn i)] = (drawn i).toList := by
              cases drawn i with
              | none => rfl
              | some p => rfl
            rw [hplayed, Option.toList_map]
          · exact List.nil_sublist _
      · obtain ⟨hnone, hline⟩ := draws.silent i hspeaks
        refine ⟨[], LineRun.quiet hline (List.sublist_append_left _ _) ?_⟩
        intro j
        rw [heardFrom_mixed hnodup, hnone]
        split
        · rfl
        · rfl
  | noRoom none => exact ⟨[], LineRun.quiet rfl (List.sublist_append_left _ _) fun _ => rfl⟩

/-- **A run**, for the line of a speaker. -/
theorem path_line (hfin : reserved.Finite) (hok : v.chat.Ok reserved)
    (h : Path (Voice.Step b reserved) v es outs v') (i : Fin maxClients) :
    ∃ cs, LineRun b i v es outs v' cs := by
  induction h with
  | nil v => exact ⟨[], LineRun.quiet rfl (List.sublist_append_left _ _) fun _ => rfl⟩
  | @cons v v₁ v₂ e es out outs first rest ih =>
      obtain ⟨cs, hfirst⟩ := step_line hok first i
      obtain ⟨ds, hrest⟩ := ih (first.chat_ok hfin hok)
      refine ⟨cs ++ ds, hfirst.calls.append hrest.calls, ?_, ?_⟩
      · have hes : packetsOf i (e :: es) = packetsOf i [e] ++ packetsOf i es := packetsOf_append i [e] es
        have harrived : arrived (cs ++ ds) = arrived cs ++ arrived ds := List.filterMap_append
        rw [hes, harrived, List.append_assoc, ← List.append_assoc (v.pendingOf i)]
        have hlater := hrest.received.append_left (arrived cs)
        have hnow := hfirst.received.append_right (packetsOf i es)
        rw [List.append_assoc (arrived cs)] at hnow
        exact hlater.trans hnow
      · intro j
        have hplayed : played (cs ++ ds) = played cs ++ played ds := List.filterMap_append
        rw [heardFrom_append, hplayed, List.map_append]
        exact (hfirst.heard j).append (hrest.heard j)

/-! ### In order -/

/-- **A stream is heard in order**, whatever else happens: if the packets of a
speaker arrive in the order of their numbers, then what a listener hears of it is
a sublist of their frames. -/
theorem stream_in_order (hfin : reserved.Finite) (hok : v.chat.Ok reserved)
    (h : Path (Voice.Step b reserved) v es outs v') (hempty : (v.lines i).held = 0) (hpending : v.pendingOf i = [])
    (hincr : KeysIncrease (Packet.place (b i)) (packetsOf i es)) (j : Fin maxClients) :
    (heardFrom i j outs).Sublist ((packetsOf i es).map Packet.pcm) := by
  obtain ⟨cs, hline⟩ := path_line hfin hok h i
  have harrived : (arrived cs).Sublist (packetsOf i es) := by
    have hreceived := hline.received
    rw [hpending, List.nil_append] at hreceived
    exact (List.sublist_append_left _ _).trans hreceived
  obtain ⟨w', -, hplayed⟩ := hline.calls.in_order (w := []) hempty (List.Pairwise.sublist harrived hincr)
  rw [List.nil_append] at hplayed
  have hsub := ((List.sublist_append_left (played cs) w').trans hplayed).trans harrived
  exact (hline.heard j).trans (hsub.map Packet.pcm)

/-! ### Where frames come from -/

/-- The packets of a slot that the service holds. -/
def Voice.Has (v : Voice) (i : Fin maxClients) (p : Packet) : Prop := p ∈ (v.lines i).held ∨ p ∈ v.pendingOf i

theorem Line.Push.mem {key : Packet → Nat} {n : Nat} {l l' : Line Packet} {p q : Packet} (h : l.Push key n p l')
    (hq : q ∈ l'.held) : q = p ∨ q ∈ l.held := by
  obtain ⟨harrives, -⟩ := h
  generalize l'.held = after at harrives hq
  cases harrives with
  | add room => exact Multiset.mem_cons.mp hq
  | evict m rest full split least =>
      rcases Multiset.mem_cons.mp hq with hq | hq
      · exact Or.inl hq
      · exact Or.inr (by rw [split]; exact Multiset.mem_cons_of_mem hq)

theorem Line.Pop.mem {key : Packet → Nat} {n : Nat} {l l' : Line Packet} {o : Option Packet} {q : Packet}
    (h : l.Pop key n o l') : (o = some q → q ∈ l.held) ∧ (q ∈ l'.held → q ∈ l.held) := by
  cases h with
  | empty nothing => exact ⟨fun h => (by cases h), fun hq => hq⟩
  | waits some waiting few => exact ⟨fun h => (by cases h), fun hq => hq⟩
  | plays a rest split least ready =>
      constructor
      · intro h
        rw [← Option.some.inj h, split]
        exact Multiset.mem_cons_self a rest
      · intro hq
        rw [split]
        exact Multiset.mem_cons_of_mem hq

/-- What the service holds, it held before or has received. -/
theorem step_has (h : v.Step b reserved e out v') {p : Packet} (hp : v'.Has i p) : v.Has i p ∨ p ∈ packetsOf i [e] := by
  cases h with
  | chat e => exact Or.inl hp
  | packet sender q room =>
      rcases hp with hp | hp
      · exact Or.inl (Or.inl hp)
      · have hpending : Voice.pendingOf { v with pending := v.pending ++ [(sender, q)] } i =
            v.pendingOf i ++ packetsOf i [.packet sender q] := List.filterMap_append
        rw [hpending] at hp
        rcases List.mem_append.mp hp with hp | hp
        · exact Or.inl (Or.inr hp)
        · exact Or.inr hp
  | dropped sender q full => exact Or.inl hp
  | @file sender q rest i' line first named push =>
      left
      have hpending := pendingOf_cons (i := i) (w := ⟨v.chat, rest, Function.update v.lines i' line⟩) first rfl
      rcases hp with hp | hp
      · by_cases hi : i' = i
        · subst hi
          rw [if_pos named] at hpending
          simp only [Function.update_self] at hp
          rcases Line.Push.mem push hp with rfl | hp
          · exact Or.inr (by rw [hpending]; exact List.mem_cons_self)
          · exact Or.inl hp
        · simp only [Function.update_of_ne (Ne.symm hi)] at hp
          exact Or.inl hp
      · right
        rw [hpending]
        split
        · exact List.mem_cons_of_mem q hp
        · exact hp
  | @discard sender q rest first unknown =>
      left
      have hpending := pendingOf_cons (i := i) (w := ⟨v.chat, rest, v.lines⟩) first rfl
      rcases hp with hp | hp
      · exact Or.inl hp
      · right
        rw [hpending]
        split
        · exact List.mem_cons_of_mem q hp
        · exact hp
  | @mix k R drawn lines room draws =>
      left
      rcases hp with hp | hp
      · left
        by_cases hspeaks : i ∈ R.members ∧ v.chat.Unmuted i
        · exact (Line.Pop.mem (draws.speaks i hspeaks.1 hspeaks.2)).2 hp
        · rw [← (draws.silent i hspeaks).2]
          exact hp
      · exact Or.inr hp
  | noRoom none => exact Or.inl hp

theorem path_has (h : Path (Voice.Step b reserved) v es outs v') {p : Packet} (hp : v'.Has i p) :
    v.Has i p ∨ p ∈ packetsOf i es := by
  induction h with
  | nil => exact Or.inl hp
  | @cons v v₁ v₂ e es out outs first rest ih =>
      have hes : packetsOf i (e :: es) = packetsOf i [e] ++ packetsOf i es := packetsOf_append i [e] es
      rw [hes]
      rcases ih hp with hheld | hreceived
      · exact (step_has first hheld).imp_right (List.mem_append_left _)
      · exact Or.inr (List.mem_append_right _ hreceived)

/-- What a listener may hear of a speaker: they sit in the same room, and the
speaker is not muted. -/
structure Chat.Reaches (x : Chat) (roomId : Nat) (i j : Fin maxClients) : Prop where
  room : ∃ R ∈ x.rooms, R.roomId = roomId ∧ i ∈ R.members ∧ j ∈ R.members
  unmuted : x.Unmuted i
  other : i ≠ j

theorem mem_frames {R : ChatRoom} {drawn : Fin maxClients → Option Packet} {f : Frame} (h : f ∈ R.frames drawn) :
    f.1 ∈ R.members ∧ ∃ p, drawn f.1 = some p ∧ p.pcm = f.2 := by
  obtain ⟨i, hi, hf⟩ := List.mem_filterMap.mp h
  obtain ⟨p, hp, rfl⟩ := Option.map_eq_some_iff.mp hf
  exact ⟨hi, p, hp, rfl⟩

/-- **Who is heard**: the audio a listener gets is for a room it sits in, its
samples are the mix of its frames, and every frame is of a packet that the
service holds of another member, who is not muted. -/
theorem hear_roommates (h : v.Step b reserved e out v') {roomId : Nat} {frames : List Frame}
    {samples : Fin frameSamples → Int16} (hout : .audio j roomId frames samples ∈ out) :
    (∃ R ∈ v.chat.rooms, R.roomId = roomId ∧ j ∈ R.members) ∧ samples = mixFrames (frames.map Prod.snd) ∧
      ∀ f ∈ frames, v.chat.Reaches roomId f.1 j ∧ ∃ p, v.Has f.1 p ∧ p.pcm = f.2 := by
  cases h with
  | chat e =>
      obtain ⟨x, -, hx⟩ := List.mem_map.mp hout
      cases hx
  | packet sender p room => cases hout
  | dropped sender p full => cases hout
  | file first named push => cases hout
  | discard first unknown => cases hout
  | @mix k R drawn lines room draws =>
      obtain ⟨m, hm, haudio⟩ := List.mem_map.mp hout
      cases haudio
      have hroom := List.mem_of_getElem? room
      refine ⟨⟨R, hroom, rfl, hm⟩, rfl, ?_⟩
      intro f hf
      obtain ⟨hf, hother⟩ := List.mem_filter.mp hf
      obtain ⟨hmember, p, hp, hpcm⟩ := mem_frames hf
      have hunmuted : v.chat.Unmuted f.1 := by
        by_contra hmuted
        have hnone := (draws.silent f.1 fun hboth => hmuted hboth.2).1
        rw [hp] at hnone
        cases hnone
      refine ⟨⟨⟨R, hroom, rfl, hmember, hm⟩, hunmuted, of_decide_eq_true hother⟩, p, ?_, hpcm⟩
      exact Or.inl ((Line.Pop.mem (draws.speaks f.1 hmember hunmuted)).1 hp)
  | noRoom none => cases hout

/-! ### Steady streams -/

/-- One packet of a speaker before every tick of a room. -/
def ticks (sender : UInt32) (k : Nat) (ps : List Packet) : List VoiceEvent :=
  ps.flatMap fun p => [.packet sender p, .file, .mix k]

/-- After a tick nothing waits to be filed. -/
theorem tick_pending {p : Packet} (hpending : v.pending = [])
    (h : Path (Voice.Step b reserved) v [.packet sender p, .file, .mix k] outs v') : v'.pending = [] := by
  cases h with
  | cons hpacket h =>
      cases h with
      | cons hfile h =>
          cases h with
          | cons hmix h =>
              cases h
              cases hpacket with
              | dropped _ _ full =>
                  rw [hpending] at full
                  cases full
              | packet _ _ room =>
                  cases hfile with
                  | discard first unknown =>
                      rw [hpending, List.nil_append, List.cons.injEq] at first
                      cases hmix with
                      | noRoom none => exact first.2.symm
                      | mix room' draws => exact first.2.symm
                  | file first named push =>
                      rw [hpending, List.nil_append, List.cons.injEq] at first
                      cases hmix with
                      | noRoom none => exact first.2.symm
                      | mix room' draws => exact first.2.symm

/-- A tick of a steady stream: the packet is filed, and the line of the speaker
is asked. -/
theorem tick_line {R : ChatRoom} {p : Packet} (hok : v.chat.Ok reserved) (hnamed : slotNamed sender = some i)
    (hroom : v.chat.rooms[k]? = some R) (hi : i ∈ R.members) (hj : j ∈ R.members) (hij : i ≠ j)
    (hunmuted : v.chat.Unmuted i) (hpending : v.pending = [])
    (h : Path (Voice.Step b reserved) v (.packet sender p :: .file :: .mix k :: es) outs v') :
    ∃ o outs' v₁, Path (Voice.Step b reserved) v₁ es outs' v' ∧ v₁.chat = v.chat ∧ v₁.pending = [] ∧
      heardFrom i j outs = (o.map Packet.pcm).toList ++ heardFrom i j outs' ∧
      ∃ l, (v.lines i).Push (Packet.place (b i)) jitterBufferSize p l ∧
        l.Pop (Packet.place (b i)) playoutCushion o (v₁.lines i) := by
  have hnodup := hok.distinct R (List.mem_of_getElem? hroom)
  cases h with
  | cons hpacket h =>
      cases h with
      | cons hfile h =>
          cases h with
          | @cons _ v₃ _ _ _ out₃ outs₃ hmix h =>
              cases hpacket with
              | dropped _ _ full =>
                  rw [hpending] at full
                  cases full
              | packet _ _ room =>
                  cases hfile with
                  | discard first unknown =>
                      rw [hpending, List.nil_append, List.cons.injEq, Prod.mk.injEq] at first
                      rw [← first.1.1, hnamed] at unknown
                      cases unknown
                  | @file sender' p' rest i' line first named push =>
                      rw [hpending, List.nil_append, List.cons.injEq, Prod.mk.injEq] at first
                      obtain ⟨⟨rfl, rfl⟩, rfl⟩ := first
                      obtain rfl : i = i' := Option.some.inj (hnamed.symm.trans named)
                      cases hmix with
                      | noRoom none =>
                          rw [hroom] at none
                          cases none
                      | @mix _ R' drawn lines room' draws =>
                          obtain rfl : R = R' := Option.some.inj (hroom.symm.trans room')
                          have hpop := draws.speaks i hi hunmuted
                          dsimp only at hpop
                          rw [Function.update_self] at hpop
                          refine ⟨drawn i, outs₃, _, h, rfl, rfl, ?_, line, push, hpop⟩
                          rw [List.nil_append, List.nil_append, heardFrom_append, heardFrom_mixed hnodup,
                            if_pos ⟨hj, hi, hij⟩]

/-- The ticks of a steady stream, for the line of the speaker. -/
theorem ticks_line {R : ChatRoom} {ps : List Packet} (hok : v.chat.Ok reserved)
    (hnamed : slotNamed sender = some i) (hroom : v.chat.rooms[k]? = some R) (hi : i ∈ R.members)
    (hj : j ∈ R.members) (hij : i ≠ j) (hunmuted : v.chat.Unmuted i) (hpending : v.pending = [])
    (h : Path (Voice.Step b reserved) v (ticks sender k ps) outs v') :
    ∃ os : List (Option Packet), os.length = ps.length ∧
      Calls (Packet.place (b i)) jitterBufferSize playoutCushion (v.lines i) (rounds ps os) (v'.lines i) ∧
      heardFrom i j outs = (os.filterMap id).map Packet.pcm := by
  induction ps generalizing v outs with
  | nil =>
      cases h
      exact ⟨[], rfl, Calls.nil _, rfl⟩
  | cons p ps ih =>
      obtain ⟨o, outs', v₁, hrest, hchat, hpending₁, hheard, l, hpush, hpop⟩ :=
        tick_line hok hnamed hroom hi hj hij hunmuted hpending h
      rw [← hchat] at hok hroom hunmuted
      obtain ⟨os, hlen, hcalls, hothers⟩ := ih hok hroom hunmuted hpending₁ hrest
      refine ⟨o :: os, by rw [List.length_cons, List.length_cons, hlen], Calls.push hpush (Calls.pop hpop hcalls), ?_⟩
      rw [hheard, hothers]
      cases o with
      | none => rfl
      | some q => rfl

/-- **A steady stream is heard without a gap**, four ticks late: one packet
before every tick, from a speaker whose line has run empty, and every listener in
the room gets all frames but the last four. -/
theorem steady_stream_delay {R : ChatRoom} {ps : List Packet} (hok : v.chat.Ok reserved)
    (hnamed : slotNamed sender = some i) (hroom : v.chat.rooms[k]? = some R) (hi : i ∈ R.members)
    (hj : j ∈ R.members) (hij : i ≠ j) (hunmuted : v.chat.Unmuted i) (hpending : v.pending = [])
    (hline : v.lines i = ⟨0, true⟩) (hincr : KeysIncrease (Packet.place (b i)) ps)
    (h : Path (Voice.Step b reserved) v (ticks sender k ps) outs v') :
    heardFrom i j outs = (ps.take (ps.length - 4)).map Packet.pcm := by
  obtain ⟨os, hlen, hcalls, hheard⟩ := ticks_line hok hnamed hroom hi hj hij hunmuted hpending h
  rw [hline] at hcalls
  have hdelay := steady_delay (w := []) hlen rfl rfl (by decide) (by decide) hincr hcalls
  have hnone : ∀ n, (List.replicate n (none : Option Packet)).filterMap id = [] := by
    intro n
    exact List.filterMap_replicate_of_none rfl
  rw [hheard, hdelay, List.nil_append, List.take_append, List.filterMap_append, List.take_replicate, hnone,
    List.nil_append, ← List.map_take, List.filterMap_map, List.length_replicate]
  congr 1
  exact List.filterMap_some

end EchoLink
