import EchoLink.VoiceStreams

/-!
# A conference

Several members of a room speak at once.  Between two mixings of their room each
of them sends one packet; the packets come and are filed in any order, and other
rooms are mixed in between.  Then every member of the room is sent one frame for
every mixing: silence while the lines of the speakers fill, and from the fifth
mixing on the mix of what all others said four mixings before (`conference_mix`).

`Gathers` says what happens to the line of a member between two mixings, and
`RoomTicks` what a whole conference is for all lines; the rest is `steady_delay`
for every line on its own.
-/

namespace EchoLink

open CText Simulation Playout

variable {b : Fin maxClients → UInt32} {reserved : Set Nat} {v v' v'' : Voice} {e : VoiceEvent}
  {es : List VoiceEvent} {out outs : List VoiceOut} {i j : Fin maxClients} {k : Nat} {R : ChatRoom}

/-! ### Between two mixings -/

/-- Packets arrive and are filed, and other rooms are mixed. -/
def Between (k : Nat) : VoiceEvent → Prop
  | .chat _ => False
  | .packet _ _ => True
  | .file => True
  | .mix k' => k' ≠ k

def VoiceEvent.arrives : VoiceEvent → Nat
  | .packet _ _ => 1
  | _ => 0

def VoiceEvent.files : VoiceEvent → Nat
  | .file => 1
  | _ => 0

/-- The number of packets that arrive. -/
def arrivals (es : List VoiceEvent) : Nat := (es.map VoiceEvent.arrives).sum

/-- The number of packets that are filed. -/
def filings (es : List VoiceEvent) : Nat := (es.map VoiceEvent.files).sum

/-- The audio a slot is sent. -/
def VoiceOut.audioFor (j : Fin maxClients) : VoiceOut → Option (Nat × List Frame × (Fin frameSamples → Int16))
  | .response _ _ => none
  | .audio slot roomId frames samples => if slot = j then some (roomId, frames, samples) else none

def audioTo (j : Fin maxClients) (outs : List VoiceOut) : List (Nat × List Frame × (Fin frameSamples → Int16)) :=
  outs.filterMap (VoiceOut.audioFor j)

/-- What a member of a room is sent when the room is mixed. -/
def ChatRoom.mixedFor (R : ChatRoom) (j : Fin maxClients) (drawn : Fin maxClients → Option Packet) :
    Nat × List Frame × (Fin frameSamples → Int16) :=
  (R.roomId, framesFor j (R.frames drawn), mixFrames ((framesFor j (R.frames drawn)).map Prod.snd))

theorem audioTo_append (j : Fin maxClients) (outs outs' : List VoiceOut) :
    audioTo j (outs ++ outs') = audioTo j outs ++ audioTo j outs' := List.filterMap_append

/-- A room sends one packet to each of its members, and nothing to others. -/
theorem audioTo_mixed (h : R.members.Nodup) (drawn : Fin maxClients → Option Packet) (j : Fin maxClients) :
    audioTo j (R.mixed drawn) = if j ∈ R.members then [R.mixedFor j drawn] else [] := by
  have hone := filterMap_at (i := j) h fun _ => some (R.mixedFor j drawn)
  rw [Option.toList_some] at hone
  rw [← hone, audioTo, ChatRoom.mixed, List.filterMap_map]
  apply List.filterMap_congr
  intro m _
  by_cases hm : m = j
  · subst hm
    simp [VoiceOut.audioFor, ChatRoom.mixedFor]
  · simp [VoiceOut.audioFor, hm]

/-- What happens to the line of a member between two mixings of its room. -/
structure Gathers (b : Fin maxClients → UInt32) (i : Fin maxClients) (v : Voice) (es : List VoiceEvent) (v' : Voice)
    (ps : List Packet) : Prop where
  pushes : Calls (Packet.place (b i)) jitterBufferSize playoutCushion (v.lines i) (ps.map .push) (v'.lines i)
  packets : ps ++ v'.pendingOf i = v.pendingOf i ++ packetsOf i es

theorem Gathers.quiet (hlines : v'.lines i = v.lines i) (hpending : v'.pendingOf i = v.pendingOf i ++ packetsOf i es) :
    Gathers b i v es v' [] where
  pushes := by
    rw [hlines]
    exact Calls.nil _
  packets := hpending

theorem Gathers.append {es' : List VoiceEvent} {ps ps' : List Packet} (h : Gathers b i v es v' ps)
    (h' : Gathers b i v' es' v'' ps') : Gathers b i v (es ++ es') v'' (ps ++ ps') where
  pushes := by
    rw [List.map_append]
    exact h.pushes.append h'.pushes
  packets := by
    rw [packetsOf_append, ← List.append_assoc, ← h.packets, List.append_assoc, List.append_assoc, h'.packets]

/-- A member of one room is in no room at another place of the list. -/
theorem Chat.Ok.elsewhere {x : Chat} (h : x.Ok reserved) {k' : Nat} {R' : ChatRoom} (hR : x.rooms[k]? = some R)
    (hR' : x.rooms[k']? = some R') (hk : k' ≠ k) (hi : i ∈ R.members) : i ∉ R'.members := by
  intro hi'
  have hname := h.once R (List.mem_of_getElem? hR) R' (List.mem_of_getElem? hR') i hi hi'
  have hlt : k' < (x.rooms.map ChatRoom.name).length := by
    rw [List.length_map]
    exact (List.getElem?_eq_some_iff.mp hR').1
  apply hk
  apply (List.getElem?_inj hlt h.names).mp
  rw [List.getElem?_map, List.getElem?_map, hR, hR', Option.map_some, Option.map_some, hname]

/-- What a step between two mixings is for the room. -/
structure StepBetween (b : Fin maxClients → UInt32) (R : ChatRoom) (v : Voice) (e : VoiceEvent) (out : List VoiceOut)
    (v' : Voice) : Prop where
  chat : v'.chat = v.chat
  count : v'.pending.length + e.files = v.pending.length + e.arrives
  quiet : ∀ j ∈ R.members, audioTo j out = []
  gathers : ∀ i ∈ R.members, ∃ ps, Gathers b i v [e] v' ps

/-- **A step between two mixings.** -/
theorem step_between (hok : v.chat.Ok reserved) (hroom : v.chat.rooms[k]? = some R) (he : Between k e)
    (hfits : v.pending.length + e.arrives ≤ ringBufferCapacity) (h : v.Step b reserved e out v') :
    StepBetween b R v e out v' := by
  cases h with
  | chat e => exact he.elim
  | packet sender p room =>
      refine ⟨rfl, by simp [VoiceEvent.files, VoiceEvent.arrives], fun j _ => rfl, ?_⟩
      intro i _
      exact ⟨[], Gathers.quiet rfl List.filterMap_append⟩
  | dropped sender p full =>
      simp only [VoiceEvent.arrives] at hfits
      omega
  | @file sender p rest i' line first named push =>
      refine ⟨rfl, by simp [first, VoiceEvent.files, VoiceEvent.arrives], fun j _ => rfl, ?_⟩
      intro i _
      have hpending := pendingOf_cons (i := i) (w := ⟨v.chat, rest, Function.update v.lines i' line⟩) first rfl
      by_cases hi : i' = i
      · subst hi
        rw [if_pos named] at hpending
        refine ⟨[p], ?_, ?_⟩
        · apply Calls.push push
          dsimp only
          rw [Function.update_self]
          exact Calls.nil _
        · rw [hpending]
          exact (List.append_nil _).symm
      · have hother : slotNamed sender ≠ some i := by
          rw [named]
          exact fun heq => hi (Option.some.inj heq)
        rw [if_neg hother] at hpending
        refine ⟨[], Gathers.quiet (Function.update_of_ne (Ne.symm hi) _ _) ?_⟩
        rw [hpending]
        exact (List.append_nil _).symm
  | @discard sender p rest first unknown =>
      refine ⟨rfl, by simp [first, VoiceEvent.files, VoiceEvent.arrives], fun j _ => rfl, ?_⟩
      intro i _
      have hpending := pendingOf_cons (i := i) (w := ⟨v.chat, rest, v.lines⟩) first rfl
      have hother : slotNamed sender ≠ some i := by simp [unknown]
      rw [if_neg hother] at hpending
      refine ⟨[], Gathers.quiet rfl ?_⟩
      rw [hpending]
      exact (List.append_nil _).symm
  | @mix k' R' drawn lines room draws =>
      refine ⟨rfl, rfl, ?_, ?_⟩
      · intro j hj
        rw [audioTo_mixed (hok.distinct R' (List.mem_of_getElem? room)), if_neg (hok.elsewhere hroom room he hj)]
      · intro i hi
        have houtside : ¬ (i ∈ R'.members ∧ v.chat.Unmuted i) := fun hboth => hok.elsewhere hroom room he hi hboth.1
        exact ⟨[], Gathers.quiet (draws.silent i houtside).2 (List.append_nil _).symm⟩
  | noRoom none =>
      refine ⟨rfl, rfl, fun j _ => rfl, ?_⟩
      intro i _
      exact ⟨[], Gathers.quiet rfl (List.append_nil _).symm⟩

/-- What all steps between two mixings are for the room. -/
structure PathBetween (b : Fin maxClients → UInt32) (R : ChatRoom) (v : Voice) (es : List VoiceEvent)
    (outs : List VoiceOut) (v' : Voice) : Prop where
  chat : v'.chat = v.chat
  count : v'.pending.length + filings es = v.pending.length + arrivals es
  quiet : ∀ j ∈ R.members, audioTo j outs = []
  gathers : ∀ i ∈ R.members, ∃ ps, Gathers b i v es v' ps

/-- **The steps between two mixings.** -/
theorem path_between (hok : v.chat.Ok reserved) (hroom : v.chat.rooms[k]? = some R) (hes : ∀ e ∈ es, Between k e)
    (hfits : v.pending.length + arrivals es ≤ ringBufferCapacity) (h : Path (Voice.Step b reserved) v es outs v') :
    PathBetween b R v es outs v' := by
  induction h with
  | nil v =>
      refine ⟨rfl, rfl, fun j _ => rfl, ?_⟩
      intro i _
      exact ⟨[], Gathers.quiet rfl (List.append_nil _).symm⟩
  | @cons v v₁ v₂ e es out outs first rest ih =>
      have harrivals : arrivals (e :: es) = e.arrives + arrivals es := List.sum_cons
      have hfilings : filings (e :: es) = e.files + filings es := List.sum_cons
      rw [harrivals] at hfits
      have hfirst := step_between hok hroom (hes e List.mem_cons_self) (by omega) first
      have hcount := hfirst.count
      rw [← hfirst.chat] at hok hroom
      have hrest := ih hok hroom (fun e' he' => hes e' (List.mem_cons_of_mem e he')) (by omega)
      have hcounts := hrest.count
      refine ⟨hrest.chat.trans hfirst.chat, by omega, ?_, ?_⟩
      · intro j hj
        rw [audioTo_append, hfirst.quiet j hj, hrest.quiet j hj]
        rfl
      · intro i hi
        obtain ⟨ps, hps⟩ := hfirst.gathers i hi
        obtain ⟨ps', hps'⟩ := hrest.gathers i hi
        exact ⟨ps ++ ps', hps.append hps'⟩

/-! ### A tick of the room -/

/-- What the steps up to a mixing, and the mixing, are for the lines. -/
structure RoomTick (b : Fin maxClients → UInt32) (R : ChatRoom) (v : Voice) (es : List VoiceEvent) (v' : Voice)
    (drawn : Fin maxClients → Option Packet) : Prop where
  chat : v'.chat = v.chat
  pending : v'.pending = []
  lines : ∀ i ∈ R.members, v.chat.Unmuted i →
    Calls (Packet.place (b i)) jitterBufferSize playoutCushion (v.lines i)
      ((packetsOf i es).map .push ++ [.pop (drawn i)]) (v'.lines i)
  silent : ∀ i, ¬ (i ∈ R.members ∧ v.chat.Unmuted i) → drawn i = none

/-- Only packets come between two mixings of the room, there is room for them,
and all of them are filed. -/
structure Filed (k : Nat) (es : List VoiceEvent) : Prop where
  between : ∀ e ∈ es, Between k e
  fits : arrivals es ≤ ringBufferCapacity
  all : filings es = arrivals es

/-- **A tick of the room.** -/
theorem room_tick (hok : v.chat.Ok reserved) (hroom : v.chat.rooms[k]? = some R) (hes : Filed k es)
    (hpending : v.pending = []) (h : Path (Voice.Step b reserved) v (es ++ [.mix k]) outs v') :
    ∃ drawn, RoomTick b R v es v' drawn ∧ ∀ j ∈ R.members, audioTo j outs = [R.mixedFor j drawn] := by
  obtain ⟨v₁, outs₁, outs₂, rfl, hbetween, hlast⟩ := h.split
  have hlength : v.pending.length = 0 := by rw [hpending, List.length_nil]
  have hgathered := path_between hok hroom hes.between (by rw [hlength, Nat.zero_add]; exact hes.fits) hbetween
  have hempty : v₁.pending = [] := by
    have hcount := hgathered.count
    rw [hes.all] at hcount
    exact List.length_eq_zero_iff.mp (by omega)
  cases hlast with
  | cons hmix hnil =>
      cases hnil
      have hchat := hgathered.chat
      cases hmix with
      | noRoom none =>
          rw [hchat, hroom] at none
          cases none
      | @mix _ R' drawn lines room draws =>
          rw [hchat, hroom] at room
          obtain rfl : R = R' := Option.some.inj room
          refine ⟨drawn, ⟨hchat, hempty, ?_, ?_⟩, ?_⟩
          · intro i hi hunmuted
            obtain ⟨ps, hps⟩ := hgathered.gathers i hi
            -- nothing waits before or after, so what is filed is what came
            have hall : ps = packetsOf i es := by
              have hpackets := hps.packets
              rw [Voice.pendingOf, Voice.pendingOf, hempty, hpending] at hpackets
              simpa using hpackets
            rw [← hall]
            exact hps.pushes.append (Calls.pop (draws.speaks i hi (by rw [hchat]; exact hunmuted)) (Calls.nil _))
          · intro i hi
            exact (draws.silent i (by rw [hchat]; exact hi)).1
          · intro j hj
            rw [List.append_nil, audioTo_append, hgathered.quiet j hj, List.nil_append,
              audioTo_mixed (hok.distinct R (List.mem_of_getElem? hroom)), if_pos hj]

/-! ### A whole conference -/

/-- The calls of the line of a member, tick after tick. -/
def lineCalls (i : Fin maxClients) (tks : List (List VoiceEvent)) (ds : List (Fin maxClients → Option Packet)) :
    List (Call Packet) :=
  (tks.zip ds).flatMap fun x => (packetsOf i x.1).map .push ++ [.pop (x.2 i)]

/-- What the ticks of a room are for the lines. -/
structure RoomTicks (b : Fin maxClients → UInt32) (R : ChatRoom) (v : Voice) (tks : List (List VoiceEvent))
    (ds : List (Fin maxClients → Option Packet)) : Prop where
  length : ds.length = tks.length
  lines : ∀ i ∈ R.members, v.chat.Unmuted i → ∃ l,
    Calls (Packet.place (b i)) jitterBufferSize playoutCushion (v.lines i) (lineCalls i tks ds) l
  silent : ∀ i, ¬ (i ∈ R.members ∧ v.chat.Unmuted i) → ∀ d ∈ ds, d i = none

/-- **The ticks of a room.** -/
theorem room_ticks {tks : List (List VoiceEvent)} (hok : v.chat.Ok reserved) (hroom : v.chat.rooms[k]? = some R)
    (htks : ∀ es ∈ tks, Filed k es) (hpending : v.pending = [])
    (h : Path (Voice.Step b reserved) v (tks.flatMap fun es => es ++ [.mix k]) outs v') :
    ∃ ds, RoomTicks b R v tks ds ∧ ∀ j ∈ R.members, audioTo j outs = ds.map (R.mixedFor j) := by
  induction tks generalizing v outs with
  | nil =>
      cases h
      refine ⟨[], ⟨rfl, ?_, ?_⟩, fun j _ => rfl⟩
      · intro i _ _
        exact ⟨_, Calls.nil _⟩
      · intro i _ d hd
        cases hd
  | cons es tks ih =>
      rw [List.flatMap_cons] at h
      obtain ⟨v₁, outs₁, outs₂, rfl, hfirst, hrest⟩ := h.split
      obtain ⟨drawn, htick, haudio⟩ := room_tick hok hroom (htks es List.mem_cons_self) hpending hfirst
      rw [← htick.chat] at hok hroom
      obtain ⟨ds, hticks, haudios⟩ :=
        ih hok hroom (fun es' hes' => htks es' (List.mem_cons_of_mem es hes')) htick.pending hrest
      refine ⟨drawn :: ds, ⟨by rw [List.length_cons, List.length_cons, hticks.length], ?_, ?_⟩, ?_⟩
      · intro i hi hunmuted
        obtain ⟨l, hl⟩ := hticks.lines i hi (by rw [htick.chat]; exact hunmuted)
        exact ⟨l, (htick.lines i hi hunmuted).append hl⟩
      · intro i hi d hd
        rcases List.mem_cons.mp hd with rfl | hd
        · exact htick.silent i hi
        · exact hticks.silent i (by rw [htick.chat]; exact hi) d hd
      · intro j hj
        rw [audioTo_append, haudio j hj, haudios j hj]
        rfl

/-- The ticks of a member with one packet before each. -/
theorem lineCalls_steady {tks : List (List VoiceEvent)} {ds : List (Fin maxClients → Option Packet)}
    (hone : ∀ es ∈ tks, (packetsOf i es).length = 1) :
    lineCalls i tks ds = rounds (tks.flatMap (packetsOf i)) (ds.map fun d => d i) := by
  induction tks generalizing ds with
  | nil => rfl
  | cons es tks ih =>
      cases ds with
      | nil =>
          rw [lineCalls, List.zip_nil_right, List.map_nil, rounds, List.zip_nil_right]
          rfl
      | cons d ds =>
          obtain ⟨p, hp⟩ := List.length_eq_one_iff.mp (hone es List.mem_cons_self)
          have hrest := @ih ds fun es' hes' => hone es' (List.mem_cons_of_mem es hes')
          rw [lineCalls] at hrest
          rw [lineCalls, List.zip_cons_cons, List.flatMap_cons, hrest, List.flatMap_cons, hp, List.map_cons]
          rfl

/-- The ticks of a member that sends nothing. -/
theorem lineCalls_idle {tks : List (List VoiceEvent)} {ds : List (Fin maxClients → Option Packet)}
    (hlen : ds.length = tks.length) (hnone : ∀ es ∈ tks, packetsOf i es = []) :
    lineCalls i tks ds = (ds.map fun d => d i).map .pop := by
  induction tks generalizing ds with
  | nil =>
      rw [List.length_eq_zero_iff.mp hlen]
      rfl
  | cons es tks ih =>
      cases ds with
      | nil => cases hlen
      | cons d ds =>
          have hrest := @ih ds (Nat.succ.inj hlen) fun es' hes' => hnone es' (List.mem_cons_of_mem es hes')
          rw [lineCalls] at hrest
          rw [lineCalls, List.zip_cons_cons, List.flatMap_cons, hrest, hnone es List.mem_cons_self]
          rfl

/-- The packet of a speaker that is mixed at a tick: the one of four ticks before. -/
def saidAt (S : Finset (Fin maxClients)) (tks : List (List VoiceEvent)) (t : Nat) (i : Fin maxClients) :
    Option Packet :=
  if i ∈ S ∧ 4 ≤ t then (tks.flatMap (packetsOf i))[t - 4]? else none

/-- Members of a room speak, one packet each before every tick, from lines that
have run empty; the other members are muted, or silent with empty lines. -/
structure Conference (k : Nat) (v : Voice) (R : ChatRoom) (S : Finset (Fin maxClients))
    (tks : List (List VoiceEvent)) : Prop where
  room : v.chat.rooms[k]? = some R
  pending : v.pending = []
  filed : ∀ es ∈ tks, Filed k es
  speakers : ∀ i ∈ S, i ∈ R.members ∧ v.chat.Unmuted i ∧ v.lines i = ⟨0, true⟩
  steady : ∀ i ∈ S, ∀ es ∈ tks, (packetsOf i es).length = 1
  others : ∀ i ∈ R.members, i ∉ S → v.chat.Unmuted i → (v.lines i).held = 0 ∧ ∀ es ∈ tks, packetsOf i es = []

theorem steady_flatMap_length {tks : List (List VoiceEvent)} (hone : ∀ es ∈ tks, (packetsOf i es).length = 1) :
    (tks.flatMap (packetsOf i)).length = tks.length := by
  rw [List.length_flatMap, List.map_congr_left hone, List.map_const', List.sum_replicate, smul_eq_mul, mul_one]

/-- What the line of a member plays at a tick. -/
theorem Conference.played {S : Finset (Fin maxClients)} {tks : List (List VoiceEvent)}
    {ds : List (Fin maxClients → Option Packet)} (h : Conference k v R S tks)
    (hincr : ∀ i ∈ S, KeysIncrease (Packet.place (b i)) (tks.flatMap (packetsOf i))) (hticks : RoomTicks b R v tks ds)
    {t : Nat} (ht : t < tks.length) {d : Fin maxClients → Option Packet} (hd : ds[t]? = some d) :
    d = saidAt S tks t := by
  funext i
  have hcolumn : (ds.map fun d => d i)[t]? = some (d i) := by rw [List.getElem?_map, hd, Option.map_some]
  by_cases hS : i ∈ S
  · obtain ⟨hi, hunmuted, hline⟩ := h.speakers i hS
    have hlength := steady_flatMap_length (h.steady i hS)
    have hincr := hincr i hS
    obtain ⟨l, hcalls⟩ := hticks.lines i hi hunmuted
    rw [lineCalls_steady (h.steady i hS), hline] at hcalls
    unfold saidAt
    generalize tks.flatMap (packetsOf i) = ps at hlength hincr hcalls ⊢
    have hsame : (ds.map fun d => d i).length = ps.length := by rw [List.length_map, hticks.length, hlength]
    have hdelay := steady_delay (w := []) hsame rfl rfl (by decide) (by decide) hincr hcalls
    have hcushion : playoutCushion - 1 - ([] : List Packet).length = 4 := rfl
    rw [hdelay, List.nil_append, hcushion, List.getElem?_take_of_lt (by rw [hlength]; exact ht)] at hcolumn
    by_cases hfour : 4 ≤ t
    · rw [List.getElem?_append_right (by rw [List.length_replicate]; exact hfour), List.length_replicate,
        List.getElem?_map] at hcolumn
      rw [if_pos ⟨hS, hfour⟩]
      obtain ⟨p, hp, hpd⟩ := Option.map_eq_some_iff.mp hcolumn
      rw [hp, hpd]
    · rw [List.getElem?_append_left (by rw [List.length_replicate]; omega),
        List.getElem?_replicate_of_lt (by omega)] at hcolumn
      rw [if_neg fun hboth => hfour hboth.2]
      exact (Option.some.inj hcolumn).symm
  · rw [saidAt, if_neg fun hboth => hS hboth.1]
    by_cases hspeaks : i ∈ R.members ∧ v.chat.Unmuted i
    · obtain ⟨hheld, hnone⟩ := h.others i hspeaks.1 hS hspeaks.2
      obtain ⟨l, hcalls⟩ := hticks.lines i hspeaks.1 hspeaks.2
      rw [lineCalls_idle hticks.length hnone] at hcalls
      exact idle_silent hheld hcalls _ (List.mem_of_getElem? hcolumn)
    · exact hticks.silent i hspeaks d (List.mem_of_getElem? hd)

/-- **What a conference sounds like.**  At every tick a member is sent the mix of
what all other speakers said four ticks before. -/
theorem conference_mix {S : Finset (Fin maxClients)} {tks : List (List VoiceEvent)} (hok : v.chat.Ok reserved)
    (h : Conference k v R S tks) (hincr : ∀ i ∈ S, KeysIncrease (Packet.place (b i)) (tks.flatMap (packetsOf i)))
    (hpath : Path (Voice.Step b reserved) v (tks.flatMap fun es => es ++ [.mix k]) outs v') (hj : j ∈ R.members) :
    audioTo j outs = (List.range tks.length).map fun t => R.mixedFor j (saidAt S tks t) := by
  obtain ⟨ds, hticks, haudio⟩ := room_ticks hok h.room h.filed h.pending hpath
  have hds : ds = (List.range tks.length).map (saidAt S tks) := by
    apply List.ext_getElem?
    intro t
    by_cases ht : t < tks.length
    · have hlt : t < ds.length := by rw [hticks.length]; exact ht
      rw [List.getElem?_map, List.getElem?_range ht, Option.map_some, List.getElem?_eq_getElem hlt]
      exact congrArg some (h.played hincr hticks ht (List.getElem?_eq_getElem hlt))
    · rw [List.getElem?_eq_none (by rw [hticks.length]; omega), List.getElem?_eq_none (by simp; omega)]
  rw [haudio j hj, hds, List.map_map]
  rfl

end EchoLink
