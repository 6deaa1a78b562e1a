import EchoLink.MixBuffers
import EchoLink.Saturation

/-!
# The order of the speakers

The samples of the speakers are added one speaker after the other, in the order
in which the participants joined, and each partial sum is cut off at 16 bits.
Near the limits the result depends on the order (`loud_order_matters`).

`least` and `greatest` of `Saturation` are the results of the two extreme orders.
As the division keeps the order of the numbers, a listener is sent the same
samples in every order exactly when, for each of them, the two extreme results
have the same quotient (`mix_order_iff`); in particular if neither the positive
nor the negative samples alone exceed the limits.
-/

namespace EchoLink

open CText RecordFile LinkedList PackedArray Saturation

/-! ### Samples as integers -/

/-- The limits of `int16_t`. -/
def sampleLimits : Limits := ⟨-32768, 32767, by decide, by decide⟩

/-- What a speaker adds to a sample: nothing behind its last one. -/
def Speaker.sample (j : Fin frameSamples) (sp : Speaker) : Int := ((sp.pcm[j.val]?).map Int16.toInt).getD 0

/-- The sum is divided if there are several speakers. -/
def normalize (count : Nat) (x : Int) : Int := if 1 < count then x.tdiv count else x

theorem toInt_within (x : Int16) : sampleLimits.Within x.toInt := by
  have hlower := x.le_toInt
  have hupper := x.toInt_lt
  simp only [Limits.Within, sampleLimits]
  omega

theorem toInt_ofInt_within {x : Int} (h : sampleLimits.Within x) : (Int16.ofInt x).toInt = x := by
  simp only [Limits.Within, sampleLimits] at h
  rw [Int16.toInt_ofInt, Int.bmod_eq_of_le (by simp [Int16.size]; omega) (by simp [Int16.size]; omega)]

theorem clampAdd_toInt (x y : Int16) : (clampAdd x y).toInt = sampleLimits.add x.toInt y.toInt := by
  unfold clampAdd
  simp only [Limits.add, Limits.cut, sampleLimits]
  split
  · have hmax : (32767 : Int16).toInt = 32767 := by decide
    rw [hmax]
    omega
  · split
    · have hmin : (-32768 : Int16).toInt = -32768 := by decide
      rw [hmin]
      omega
    · rw [toInt_ofInt_within]
      · omega
      · simp only [Limits.Within, sampleLimits]
        omega

theorem addPcm_toInt (mixed : Fin frameSamples → Int16) (sp : Speaker) (j : Fin frameSamples) :
    (addPcm mixed sp.pcm j).toInt = sampleLimits.add (mixed j).toInt (sp.sample j) := by
  unfold addPcm Speaker.sample
  cases sp.pcm[j.val]? with
  | none =>
      have hsame := cut_within (toInt_within (mixed j))
      simp only [Option.map_none, Option.getD_none, Limits.add, Int.add_zero, hsame]
  | some x => exact clampAdd_toInt _ _

theorem foldl_addPcm_toInt (speakers : List Speaker) (mixed : Fin frameSamples → Int16) (j : Fin frameSamples) :
    (speakers.foldl (fun mixed sp => addPcm mixed sp.pcm) mixed j).toInt =
      (speakers.map (Speaker.sample j)).foldl sampleLimits.add (mixed j).toInt := by
  induction speakers generalizing mixed with
  | nil => rfl
  | cons sp rest ih => rw [List.foldl_cons, ih, List.map_cons, List.foldl_cons, addPcm_toInt]

theorem normalize_within {x : Int} (h : sampleLimits.Within x) (count : Nat) :
    sampleLimits.Within (normalize count x) := by
  unfold normalize
  split
  · rename_i hmany
    have habs : (x.tdiv count).natAbs = x.natAbs / count := by
      rw [Int.natAbs_tdiv, Int.natAbs_natCast]
      rfl
    have hhalf : x.natAbs / count ≤ x.natAbs / 2 := Nat.div_le_div_left hmany (by decide)
    simp only [Limits.Within, sampleLimits] at h ⊢
    omega
  · exact h

/-- **A sample of the mix.** -/
theorem mixSpeakers_toInt (speakers : List Speaker) (j : Fin frameSamples) :
    (mixSpeakers speakers j).toInt =
      normalize speakers.length ((speakers.map (Speaker.sample j)).foldl sampleLimits.add 0) := by
  have hfold := foldl_addPcm_toInt speakers (fun _ => 0) j
  have hzero : (0 : Int16).toInt = 0 := rfl
  rw [hzero] at hfold
  rw [← hfold]
  have hin := normalize_within (toInt_within (speakers.foldl (fun mixed sp => addPcm mixed sp.pcm) (fun _ => 0) j))
    speakers.length
  unfold mixSpeakers
  unfold normalize at hin ⊢
  split
  · rename_i hmany
    rw [if_pos hmany] at hin
    exact toInt_ofInt_within hin
  · rfl

theorem normalize_mono {x y : Int} (h : x ≤ y) (count : Nat) : normalize count x ≤ normalize count y := by
  unfold normalize
  split
  · exact Int.tdiv_le_tdiv (by omega) h
  · exact h

/-! ### Settled samples -/

/-- The two extreme orders lead to the same sample. -/
def Settled (xs : List Int) : Prop :=
  normalize xs.length (sampleLimits.least xs) = normalize xs.length (sampleLimits.greatest xs)

instance : DecidablePred Settled := fun _ => inferInstanceAs (Decidable (_ = _))

/-- A settled sample is the same in every order. -/
theorem Settled.fold_eq {xs ys : List Int} (h : Settled xs) (hp : ys.Perm xs) :
    normalize ys.length (ys.foldl sampleLimits.add 0) = normalize xs.length (sampleLimits.least xs) := by
  rw [hp.length_eq]
  apply Int.le_antisymm
  · rw [h, ← Limits.greatest_perm hp]
    exact normalize_mono (fold_le_greatest ys) _
  · rw [← Limits.least_perm hp]
    exact normalize_mono (least_le_fold ys) _

/-- Where no partial sum can be cut off, samples are settled. -/
theorem settled_of_small {xs : List Int} (hgains : gains xs ≤ 32767) (hlosses : losses xs ≤ 32768) : Settled xs := by
  have hg := gains_nonneg xs
  have hl := losses_nonneg xs
  have hsame : sampleLimits.least xs = sampleLimits.greatest xs := by
    simp only [Limits.least, Limits.greatest, Limits.leastFrom, Limits.greatestFrom, Limits.cut, sampleLimits]
    omega
  rw [Settled, hsame]

/-! ### The participants in another order -/

/-- The array of participants in another order. -/
def Room.reordered (r : Room) (order : List (Option Ptr)) : Room :=
  { r with participants := fun i => (order[i]?).join }

def Mixer.reordered (m : Mixer) (p : Ptr) (r : Room) (order : List (Option Ptr)) : Mixer :=
  { m with server := m.server.setRoom p (r.reordered order) }

/-- The samples that a listener hears at one place. -/
def Mixer.heardSamples (m : Mixer) (r : Room) (slot : Fin maxClients) (j : Fin frameSamples) : List Int :=
  (heardBy slot (m.voicesIn r)).map (Speaker.sample j)

variable {s : Server} {a : Audio} {m : Mixer} {p : Ptr} {r : Room} {order ps : List (Option Ptr)}
  {slot : Fin maxClients} {j : Fin frameSamples}

theorem reordered_snapshot (h : order.Perm r.snapshot) : (r.reordered order).snapshot = order := by
  have hlen : order.length = r.participantCount := by
    rw [h.length_eq, Room.snapshot, List.length_map, List.length_range]
  apply List.ext_getElem?
  intro i
  simp only [Room.snapshot, Room.reordered, List.getElem?_map, ← hlen]
  by_cases hi : i < order.length
  · rw [List.getElem?_range hi, Option.map_some, List.getElem?_eq_getElem hi]
    rfl
  · rw [List.getElem?_eq_none (by simpa using hi), List.getElem?_eq_none (by simpa using hi), Option.map_none]

theorem present_perm (h : order.Perm ps) : (s.present order).Perm (s.present ps) := h.filterMap _

theorem Mixable.reordered (h : Mixable m.server p r) (hp : order.Perm r.snapshot) :
    Mixable (m.reordered p r order).server p (r.reordered order) where
  room := Function.update_self ..
  count := h.count
  live := by
    intro c hc
    rw [reordered_snapshot hp, hp.mem_iff] at hc
    obtain ⟨cl, hcl, hroom⟩ := h.live c hc
    refine ⟨cl, hcl, ?_⟩
    intro q hq
    obtain ⟨r', hr'⟩ := hroom q hq
    by_cases hqp : q = p
    · exact ⟨_, by rw [hqp]; exact Function.update_self ..⟩
    · exact ⟨r', by rw [← hr']; exact Function.update_of_ne hqp ..⟩
  slots := by
    rw [reordered_snapshot hp]
    exact ((present_perm (s := m.server) hp).map _).nodup_iff.mpr h.slots

theorem SemInRange.reordered (h : SemInRange m.server r) (hp : order.Perm r.snapshot) :
    SemInRange (m.reordered p r order).server (r.reordered order) := by
  refine h.imp_right ?_
  intro hsilent x hx
  rw [reordered_snapshot hp] at hx
  exact hsilent x ((present_perm (s := m.server) hp).mem_iff.mp hx)

theorem voices_perm (h : order.Perm ps) : (voices s a order).Perm (voices s a ps) :=
  ((present_perm h).filter _).flatMap_right _

/-- The voices of a room in another order. -/
theorem voicesIn_reordered (hp : order.Perm r.snapshot) :
    (m.reordered p r order).voicesIn (r.reordered order) =
      if hid : r.roomId < maxRooms then
        if m.sems ⟨r.roomId, hid⟩ = 0 then [] else voices m.server m.audio order
      else [] := by
  rw [Mixer.voicesIn, reordered_snapshot hp]
  rfl

theorem voicesIn_perm (hp : order.Perm r.snapshot) :
    ((m.reordered p r order).voicesIn (r.reordered order)).Perm (m.voicesIn r) := by
  rw [voicesIn_reordered hp, Mixer.voicesIn]
  split
  · split
    · exact List.Perm.refl _
    · exact voices_perm hp
  · exact List.Perm.refl _

theorem heardSamples_perm (hp : order.Perm r.snapshot) :
    ((m.reordered p r order).heardSamples (r.reordered order) slot j).Perm (m.heardSamples r slot j) :=
  ((voicesIn_perm hp).filter _).map _

/-- What a listener is sent in a given order. -/
theorem samplesTo_reordered (h : Mixable m.server p r) (hin : SemInRange m.server r) {x : Ptr × Client}
    (hx : x ∈ m.server.listeners r) (hp : order.Perm r.snapshot) (b : MixBuffers) :
    samplesTo x.1 (mixRoomStatic (m.reordered p r order) b p) =
      some [mixSpeakers (heardBy x.2.slot ((m.reordered p r order).voicesIn (r.reordered order)))] := by
  apply samplesTo_eq (h.reordered hp) (hin.reordered hp) b
  rw [Server.listeners, reordered_snapshot hp]
  exact ((present_perm (s := m.server) hp).filter _).mem_iff.mpr hx

/-! ### The extreme orders -/

/-- The sample that a participant has ready. -/
def readySample (s : Server) (a : Audio) (j : Fin frameSamples) (o : Option Ptr) : Int :=
  ((o.bind s.clientMem).bind fun cl => ((a.speakerOf cl.slot).map (Speaker.sample j)).head?).getD 0

theorem readySample_eq {x : Ptr × Client} (hx : s.clientMem x.1 = some x.2) {sp : Speaker}
    (hsp : sp ∈ a.speakerOf x.2.slot) : readySample s a j (some x.1) = sp.sample j := by
  have honly : a.speakerOf x.2.slot = [sp] := by
    unfold Audio.speakerOf at hsp ⊢
    obtain ⟨i, hi, rfl⟩ := Option.map_eq_some_iff.mp (Option.mem_toList.mp hsp)
    rw [hi]
    rfl
  simp [readySample, hx, honly]

/-- The participants can be ordered by the samples they have ready, in any
direction. -/
theorem exists_order (s : Server) (a : Audio) (ps : List (Option Ptr)) (slot : Fin maxClients)
    (j : Fin frameSamples) (w : Int → Int) :
    ∃ order, order.Perm ps ∧
      ((heardBy slot (voices s a order)).map (Speaker.sample j)).Pairwise fun x y => w x ≤ w y := by
  obtain ⟨order, hp, hsorted⟩ := exists_sorted (fun o => w (readySample s a j o)) ps
  refine ⟨order, hp, ?_⟩
  -- what is heard comes in the order of the participants, one sample of each at most
  rw [List.pairwise_map]
  apply List.Pairwise.filter
  rw [voices, List.pairwise_flatMap]
  constructor
  · intro x _
    unfold Audio.speakerOf
    cases popIndex (a.jitter x.2.slot) with
    | none => exact List.Pairwise.nil
    | some i => exact List.pairwise_singleton _ _
  · apply List.Pairwise.filter
    rw [Server.present, List.pairwise_filterMap]
    refine hsorted.imp ?_
    intro o o' hle x hx y hy sp hsp sp' hsp'
    obtain ⟨c, rfl, hc⟩ := Option.bind_eq_some_iff.mp hx
    obtain ⟨cl, hcl, rfl⟩ := Option.map_eq_some_iff.mp hc
    obtain ⟨d, rfl, hd⟩ := Option.bind_eq_some_iff.mp hy
    obtain ⟨dl, hdl, rfl⟩ := Option.map_eq_some_iff.mp hd
    rw [readySample_eq (x := (c, cl)) hcl hsp, readySample_eq (x := (d, dl)) hdl hsp'] at hle
    exact hle

theorem exists_reordering (m : Mixer) (p : Ptr) (r : Room) (slot : Fin maxClients) (j : Fin frameSamples)
    (w : Int → Int) :
    ∃ order, order.Perm r.snapshot ∧
      ((m.reordered p r order).heardSamples (r.reordered order) slot j).Pairwise fun x y => w x ≤ w y := by
  obtain ⟨order, hp, hsorted⟩ := exists_order m.server m.audio r.snapshot slot j w
  refine ⟨order, hp, ?_⟩
  rw [Mixer.heardSamples, voicesIn_reordered hp]
  split
  · split
    · exact List.Pairwise.nil
    · exact hsorted
  · exact List.Pairwise.nil

/-- A sample that a listener is sent in a given order. -/
theorem mix_sample (m : Mixer) (r : Room) (slot : Fin maxClients) (j : Fin frameSamples) :
    (mixSpeakers (heardBy slot (m.voicesIn r)) j).toInt =
      normalize (m.heardSamples r slot j).length ((m.heardSamples r slot j).foldl sampleLimits.add 0) := by
  rw [mixSpeakers_toInt, Mixer.heardSamples, List.length_map]

/-- **The mix for a listener does not depend on the order of the participants**
exactly when every sample of it is settled, as it is if neither the positive nor
the negative samples alone exceed the limits. -/
theorem mix_order_iff (m : Mixer) (p : Ptr) (r : Room) (h : Mixable m.server p r) (hin : SemInRange m.server r)
    (x : Ptr × Client) (hx : x ∈ m.server.listeners r) :
    ((∃ samples, ∀ order, order.Perm r.snapshot → ∀ b,
        samplesTo x.1 (mixRoomStatic (m.reordered p r order) b p) = some [samples]) ↔
      ∀ j, Settled (m.heardSamples r x.2.slot j)) ∧
    ∀ j, gains (m.heardSamples r x.2.slot j) ≤ 32767 → losses (m.heardSamples r x.2.slot j) ≤ 32768 →
      Settled (m.heardSamples r x.2.slot j) := by
  refine ⟨?_, fun j => settled_of_small⟩
  constructor
  · intro ⟨samples, hsame⟩ j
    -- the sample in an order is the one that is always sent
    have hvalue : ∀ order, order.Perm r.snapshot →
        (samples j).toInt = normalize (m.heardSamples r x.2.slot j).length
          (((m.reordered p r order).heardSamples (r.reordered order) x.2.slot j).foldl sampleLimits.add 0) := by
      intro order hp
      have hsent := hsame order hp zeroBuffers
      rw [samplesTo_reordered h hin hx hp] at hsent
      have hfun : mixSpeakers (heardBy x.2.slot ((m.reordered p r order).voicesIn (r.reordered order))) = samples := by
        simpa using hsent
      rw [← hfun, mix_sample, (heardSamples_perm (m := m) (p := p) hp).length_eq]
    obtain ⟨down, hdown, hdescending⟩ := exists_reordering m p r x.2.slot j fun y => -y
    obtain ⟨up, hup, hascending⟩ := exists_reordering m p r x.2.slot j fun y => y
    have hleast := hvalue down hdown
    rw [fold_descending (hdescending.imp fun hle => Int.neg_le_neg_iff.mp hle),
      Limits.least_perm (heardSamples_perm hdown)] at hleast
    have hgreatest := hvalue up hup
    rw [fold_ascending hascending, Limits.greatest_perm (heardSamples_perm hup)] at hgreatest
    rw [Settled, ← hleast, hgreatest]
  · intro hsettled
    refine ⟨mixSpeakers (heardBy x.2.slot (m.voicesIn r)), ?_⟩
    intro order hp b
    rw [samplesTo_reordered h hin hx hp]
    congr 2
    funext j
    rw [← Int16.toInt_inj, mix_sample, mix_sample, (hsettled j).fold_eq (heardSamples_perm hp),
      (hsettled j).fold_eq (List.Perm.refl _)]

/-- The client in the first slot of a hall. -/
def hallListener : Ptr × Client := (0, hallClient firstSlot)

theorem hallListener_mem {n roomId : Nat} (hn : 0 < n) :
    hallListener ∈ (hall n roomId).listeners (hallRoom n roomId) := by
  have hmem : some 0 ∈ (hallRoom n roomId).snapshot :=
    List.mem_map.mpr ⟨0, List.mem_range.mpr hn, if_pos hn⟩
  have hclient : (hall n roomId).clientMem 0 = some (hallClient ⟨0, by decide⟩) := by
    simp [hall, hn, maxClients]
  refine List.mem_filter.mpr ⟨List.mem_filterMap.mpr ⟨some 0, hmem, ?_⟩, rfl⟩
  rw [Option.bind_some, hclient]
  rfl

/-- What one speaker says is heard in every order. -/
theorem quiet_order_does_not_matter :
    ∃ samples, ∀ order, order.Perm (hallRoom 2 0).snapshot → ∀ b,
      samplesTo 0 (mixRoomStatic ((talkingHall 2 0).reordered 0 (hallRoom 2 0) order) b 0) = some [samples] :=
  (mix_order_iff (talkingHall 2 0) 0 (hallRoom 2 0) (hall_mixable (by decide) (by decide +kernel))
    (Or.inl (by decide)) hallListener (hallListener_mem (by decide))).1.mpr (by decide +kernel)

/-- Three speakers at the limits. -/
def loudHall : Mixer where
  server := hall 4 0
  audio := { Audio.start with
    jitter := fun slot =>
      if slot = 1 ∨ slot = 2 then talking 255 127 else if slot = 3 then talking 0 128 else emptyJitter }
  sems := fun _ => maxSpeakersPerRoom

/-- With the one that is negative in the middle, the sum is not cut off. -/
theorem loud_order_matters :
    ¬ ∀ (m : Mixer) (p : Ptr) (r : Room), Mixable m.server p r → SemInRange m.server r →
      ∀ x ∈ m.server.listeners r, ∀ order order' : List (Option Ptr),
      order.Perm r.snapshot → order'.Perm r.snapshot → ∀ b,
        samplesTo x.1 (mixRoomStatic (m.reordered p r order) b p) =
          samplesTo x.1 (mixRoomStatic (m.reordered p r order') b p) := by
  intro hall
  have hsame := hall loudHall 0 (hallRoom 4 0) (hall_mixable (by decide) (by decide +kernel)) (Or.inl (by decide))
    hallListener (hallListener_mem (by decide)) [some 0, some 1, some 2, some 3] [some 0, some 1, some 3, some 2]
    (by decide +kernel) (by decide +kernel) zeroBuffers
  have hfirst := congrArg (fun out => out.map fun sent => sent.map fun samples => samples ⟨0, by decide⟩) hsame
  revert hfirst
  decide +kernel

end EchoLink
