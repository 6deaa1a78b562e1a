import EchoLink.JitterOrder

/-!
# The playout of a jitter buffer

What the mixer plays for a sender is what its pops give.  `PlayLog` keeps, with
the buffer, what each pop met and gave.

A buffer forgets what it has given out (nothing reads `next_expected_seq`), so a
packet that comes late, or twice, is played late, or twice.  In runs without such
packets the numbers played increase (`playout_increases`).

Playout should start when five packets are there, and does so after every
underrun.  `audio_mixer_init` leaves the flag `buffering` cleared, so the first
pop of all does not wait: `cushion_iff` says which runs keep the rule.
-/

namespace EchoLink

open CText RecordFile Runs SlotBag SerialScan

/-- A call of `jitter_buffer_pop`: how many packets were in the buffer, and the
number of the one it gave. -/
structure Pop where
  found : Nat
  played : Option UInt32
  deriving DecidableEq

/-- A jitter buffer with the pops so far. -/
structure PlayLog where
  jb : JitterBuffer
  pops : List Pop

def PlayLog.start : PlayLog := ⟨emptyJitter, []⟩

/-- The next call of `jitter_buffer_pop`. -/
def JitterBuffer.nextPop (jb : JitterBuffer) : Pop :=
  ⟨jb.validCount, (jitterBufferPop jb).1.map JitterEntry.seqNum⟩

def PlayLog.step (s : PlayLog) : JitterOp → Option PlayLog
  | .push pkt => (jitterBufferPush s.jb pkt).map fun jb => { s with jb := jb }
  | .pop => some ⟨(jitterBufferPop s.jb).2, s.pops ++ [s.jb.nextPop]⟩

/-- The numbers that were played, in order. -/
def PlayLog.played (s : PlayLog) : List UInt32 := s.pops.filterMap Pop.played

variable {jb jb' : JitterBuffer} {pkt : AudioPacket} {s s' : PlayLog} {b : UInt32} {ops : List JitterOp}

theorem play_push (h : s.step (.push pkt) = some s') : jitterBufferPush s.jb pkt = some s'.jb ∧ s'.pops = s.pops := by
  obtain ⟨jb, hpush, rfl⟩ := Option.map_eq_some_iff.mp h
  exact ⟨hpush, rfl⟩

theorem push_fits (h : jitterBufferPush jb pkt = some jb') :
    (AudioPacket.payloadSize pkt).toNat ≤ audioPayloadSize := push_isSome_iff.mp (by rw [h]; rfl)

/-- Calls whose payloads fit have an outcome. -/
theorem play_runs (s : PlayLog) (h : ∀ op ∈ ops, op.Fits) : ∃ s', run PlayLog.step s ops = some s' := by
  have halong : Along PlayLog.step (fun _ op => op.Fits) s ops := along_of_forall h
  have hstep : ∀ (s : PlayLog) (op : JitterOp), True → op.Fits → ∃ s', s.step op = some s' ∧ True := by
    intro s op _ hop
    cases op with
    | pop => exact ⟨_, rfl, trivial⟩
    | push pkt =>
        obtain ⟨jb', hpush, -⟩ := push_spec s.jb hop
        exact ⟨_, by rw [PlayLog.step, hpush, Option.map_some], trivial⟩
  obtain ⟨s', hrun, -⟩ := run_invariant hstep trivial halong
  exact ⟨s', hrun⟩

/-! ### The order of playout -/

/-- A packet that is pushed is inside the window, later than everything played,
and not in the buffer yet, except in the entry it overwrites. -/
def OnTime (b : UInt32) (s : PlayLog) : JitterOp → Prop
  | .push pkt =>
      InWindow b (AudioPacket.seqNum pkt) ∧
        (∀ n ∈ s.played, serial b n < serial b (AudioPacket.seqNum pkt)) ∧
        ∀ i, i ≠ pushIndex s.jb → (s.jb.buffer i).valid = true → (s.jb.buffer i).seqNum ≠ AudioPacket.seqNum pkt
  | .pop => True

instance (b : UInt32) (s : PlayLog) : DecidablePred (OnTime b s)
  | .push pkt =>
      -- the list of the numbers played is searched, not the type of numbers
      have : Decidable (∀ n ∈ s.played, serial b n < serial b (AudioPacket.seqNum pkt)) :=
        List.decidableBAll _ s.played
      inferInstanceAs (Decidable
        (serial b (AudioPacket.seqNum pkt) < 2 ^ 31 ∧
          (∀ n ∈ s.played, serial b n < serial b (AudioPacket.seqNum pkt)) ∧
          ∀ i, i ≠ pushIndex s.jb → (s.jb.buffer i).valid = true → (s.jb.buffer i).seqNum ≠ AudioPacket.seqNum pkt))
  | .pop => inferInstanceAs (Decidable True)

/-- The numbers increase. -/
def Increasing (b : UInt32) (numbers : List UInt32) : Prop :=
  numbers.Pairwise fun m n => serial b m < serial b n

/-- What was played comes before what is in the buffer. -/
structure InOrder (b : UInt32) (s : PlayLog) : Prop where
  window : s.jb.Windowed b
  increasing : Increasing b s.played
  ahead : ∀ n ∈ s.played, ∀ i, (s.jb.buffer i).valid = true → serial b n < serial b (s.jb.buffer i).seqNum
  distinct : ∀ i j, (s.jb.buffer i).valid = true → (s.jb.buffer j).valid = true →
    (s.jb.buffer i).seqNum = (s.jb.buffer j).seqNum → i = j

theorem InOrder.start (b : UInt32) : InOrder b PlayLog.start where
  window := by
    intro i hi
    cases hi
  increasing := List.Pairwise.nil
  ahead := fun n hn => absurd hn List.not_mem_nil
  distinct := by
    intro i j hi
    cases hi

theorem InOrder.push (h : InOrder b s) (hop : OnTime b s (.push pkt)) (hstep : s.step (.push pkt) = some s') :
    InOrder b s' := by
  obtain ⟨hwindow, hlater, hnew⟩ := hop
  obtain ⟨hpush, hpops⟩ := play_push hstep
  have hplayed : s'.played = s.played := by rw [PlayLog.played, PlayLog.played, hpops]
  refine ⟨Windowed.push h.window hwindow hpush, ?_, ?_, ?_⟩
  · rw [hplayed]
    exact h.increasing
  · intro n hn i hi
    rw [hplayed] at hn
    rcases push_buffer hpush i with ⟨-, hseq⟩ | ⟨-, hsame⟩
    · rw [hseq]
      exact hlater n hn
    · rw [hsame] at hi ⊢
      exact h.ahead n hn i hi
  · intro i j hi hj heq
    rcases push_buffer hpush i with ⟨hip, hseqi⟩ | ⟨hip, hsamei⟩ <;>
      rcases push_buffer hpush j with ⟨hjp, hseqj⟩ | ⟨hjp, hsamej⟩
    · rw [hip, hjp]
    · rw [hsamej] at hj heq
      exact absurd (by rw [← heq, hseqi]) (hnew j hjp hj)
    · rw [hsamei] at hi heq
      exact absurd (by rw [heq, hseqj]) (hnew i hip hi)
    · rw [hsamei] at hi heq
      rw [hsamej] at hj heq
      exact h.distinct i j hi hj heq

theorem InOrder.pop (h : InOrder b s) (hstep : s.step .pop = some s') : InOrder b s' := by
  obtain rfl := Option.some.inj hstep
  rcases pop_cases s.jb with ⟨-, hnone, hbuffer, -⟩ | ⟨i, seq, -, hbest, hpop⟩
  · have hplayed : PlayLog.played ⟨(jitterBufferPop s.jb).2, s.pops ++ [s.jb.nextPop]⟩ = s.played := by
      simp [PlayLog.played, JitterBuffer.nextPop, hnone]
    refine ⟨Windowed.congr h.window hbuffer, ?_, ?_, ?_⟩
    · rw [hplayed]
      exact h.increasing
    · rw [hplayed]
      simp only [hbuffer]
      exact h.ahead
    · simp only [hbuffer]
      exact h.distinct
  · have hvalid : (s.jb.buffer i).valid = true := bestEntry_valid hbest
    have hplayed : PlayLog.played ⟨(jitterBufferPop s.jb).2, s.pops ++ [s.jb.nextPop]⟩ =
        s.played ++ [(s.jb.buffer i).seqNum] := by
      simp [PlayLog.played, JitterBuffer.nextPop, hpop]
    -- What stays is another entry, and so has a greater number.
    have hrest : ∀ j, ((s.jb.without i).buffer j).valid = true →
        (s.jb.without i).buffer j = s.jb.buffer j ∧ (s.jb.buffer j).valid = true ∧
          serial b (s.jb.buffer i).seqNum < serial b (s.jb.buffer j).seqNum := by
      intro j hj
      obtain ⟨hsame, hj'⟩ := without_valid hj
      refine ⟨hsame, hj', ?_⟩
      have hle := bestEntry_least h.window hbest hj'
      have hne : serial b (s.jb.buffer i).seqNum ≠ serial b (s.jb.buffer j).seqNum := by
        intro heq
        obtain rfl := h.distinct i j hvalid hj' (serial_injective b heq)
        simp [JitterBuffer.without] at hj
      omega
    refine ⟨Windowed.pop h.window, ?_, ?_, ?_⟩
    · rw [hplayed, Increasing, List.pairwise_append]
      refine ⟨h.increasing, List.pairwise_singleton _ _, ?_⟩
      intro n hn m hm
      obtain rfl := List.mem_singleton.mp hm
      exact h.ahead n hn i hvalid
    · rw [hplayed]
      simp only [hpop]
      intro n hn j hj
      obtain ⟨hsame, hj', hlater⟩ := hrest j hj
      rw [hsame]
      rcases List.mem_append.mp hn with hn | hn
      · exact h.ahead n hn j hj'
      · obtain rfl := List.mem_singleton.mp hn
        exact hlater
    · simp only [hpop]
      intro j k hj hk heq
      obtain ⟨hsamej, hj', -⟩ := hrest j hj
      obtain ⟨hsamek, hk', -⟩ := hrest k hk
      rw [hsamej, hsamek] at heq
      exact h.distinct j k hj' hk' heq

theorem InOrder.step (h : InOrder b s) {op : JitterOp} (hop : OnTime b s op) (hstep : s.step op = some s') :
    InOrder b s' := by
  cases op with
  | push pkt => exact h.push hop hstep
  | pop => exact h.pop hstep

/-- **Playout does not go back** in a run whose packets come before anything later
is played, and once. -/
theorem playout_increases (b : UInt32) (ops : List JitterOp) (h : Along PlayLog.step (OnTime b) PlayLog.start ops) :
    (∀ s, run PlayLog.step PlayLog.start ops = some s → Increasing b s.played) ∧
      ((∀ op ∈ ops, op.Fits) → ∃ s, run PlayLog.step PlayLog.start ops = some s) := by
  refine ⟨?_, play_runs PlayLog.start⟩
  intro s hrun
  exact (run_some_invariant (fun _ _ _ hs hop hstep => hs.step hop hstep) (InOrder.start b) h hrun).increasing

/-- Packets that arrive out of order are played in order. -/
theorem playout_increases_three :
    (∀ s, run PlayLog.step PlayLog.start
        [.push (numberedPacket 2), .push (numberedPacket 1), .pop, .push (numberedPacket 3), .pop] = some s →
      Increasing 0 s.played) ∧
    ((∀ op ∈ [JitterOp.push (numberedPacket 2), .push (numberedPacket 1), .pop, .push (numberedPacket 3), .pop],
        op.Fits) → ∃ s, run PlayLog.step PlayLog.start
          [.push (numberedPacket 2), .push (numberedPacket 1), .pop, .push (numberedPacket 3), .pop] = some s) :=
  playout_increases 0 _
    (along_of_checkAlong (fun s op h => of_decide_eq_true (p := OnTime 0 s op) h) (by decide +kernel))

/-- A packet that comes late is played after a later one. -/
theorem late_packet_is_played :
    ¬ ∀ (b : UInt32) (ops : List JitterOp), (∀ op ∈ ops, op.Fits) → (∀ op ∈ ops, op.Windowed b) →
      ∃ s, run PlayLog.step PlayLog.start ops = some s ∧ Increasing b s.played := by
  intro hall
  let ops : List JitterOp := [.push (numberedPacket 2), .pop, .push (numberedPacket 1), .pop]
  have hfits : ∀ op ∈ ops, op.Fits := by decide +kernel
  have hwindow : ∀ op ∈ ops, op.Windowed 0 := by
    intro op hop
    simp only [ops, List.mem_cons, List.not_mem_nil, or_false] at hop
    rcases hop with rfl | rfl | rfl | rfl
    · exact (by decide +kernel : serial 0 (AudioPacket.seqNum (numberedPacket 2)) < 2 ^ 31)
    · trivial
    · exact (by decide +kernel : serial 0 (AudioPacket.seqNum (numberedPacket 1)) < 2 ^ 31)
    · trivial
  obtain ⟨s, hrun, hincreasing⟩ := hall 0 ops hfits hwindow
  have hplayed : (run PlayLog.step PlayLog.start ops).map PlayLog.played = some [2, 1] := by decide +kernel
  rw [hrun, Option.map_some, Option.some.injEq] at hplayed
  rw [hplayed] at hincreasing
  have hlt : serial 0 2 < serial 0 1 := (List.pairwise_cons.mp hincreasing).1 1 List.mem_cons_self
  exact absurd hlt (by decide)

/-! ### The cushion -/

/-- How playout should start and go on: a pop that gives the first packet, or the
first one after a pop that gave none, found five packets; and once a pop has
given a packet, the following ones do until one finds the buffer empty. -/
structure Cushioned (pops : List Pop) : Prop where
  filled : ∀ before p after, pops = before ++ p :: after → p.played.isSome →
    (∀ q ∈ before.getLast?, q.played = none) → 5 ≤ p.found
  steady : ∀ before p between q after, pops = before ++ p :: (between ++ q :: after) → p.played.isSome →
    (∀ x ∈ between, x.found ≠ 0) → q.found ≠ 0 → q.played.isSome

def JitterOp.isPush : JitterOp → Bool
  | .push _ => true
  | .pop => false

/-- No packets or five are pushed before the first pop, or there is none. -/
def StartsFilled (ops : List JitterOp) : Prop :=
  JitterOp.pop ∈ ops →
    (ops.takeWhile JitterOp.isPush).length = 0 ∨ 5 ≤ (ops.takeWhile JitterOp.isPush).length

/-- The first pop of all found five packets, or gave none. -/
def FirstFilled (pops : List Pop) : Prop := ∀ p ∈ pops.head?, p.played.isSome → 5 ≤ p.found

theorem snoc_split {α : Type} {xs before after : List α} {x y : α} (h : xs ++ [y] = before ++ x :: after) :
    (after = [] ∧ before = xs ∧ x = y) ∨ ∃ rest, after = rest ++ [y] ∧ xs = before ++ x :: rest := by
  rcases List.eq_nil_or_concat after with rfl | ⟨rest, z, rfl⟩
  · obtain ⟨rfl, hx⟩ := List.append_inj' h rfl
    exact Or.inl ⟨rfl, rfl, (List.singleton_inj.mp hx).symm⟩
  · rw [List.concat_eq_append, ← List.cons_append, ← List.append_assoc] at h
    obtain ⟨hxs, hz⟩ := List.append_inj' h rfl
    refine Or.inr ⟨rest, ?_, hxs⟩
    rw [List.concat_eq_append, List.singleton_inj.mp hz]

/-- The counter of a buffer is right. -/
def JitterBuffer.Counted (jb : JitterBuffer) : Prop := jb.count = jb.validCount

theorem counted_push (h : jb.Counted) (hpush : jitterBufferPush jb pkt = some jb') :
    jb'.Counted ∧ jb'.buffering = jb.buffering ∧ jb'.validCount = min (jb.validCount + 1) jitterBufferSize := by
  have hfits := push_fits hpush
  obtain ⟨jb₁, hpush₁, hcases⟩ := push_cases jb hfits
  obtain ⟨jb₂, hpush₂, -, -, hbuffering⟩ := push_spec jb hfits
  rw [hpush, Option.some.injEq] at hpush₁ hpush₂
  subst hpush₁
  rw [← hpush₂] at hbuffering
  have hbound := validCount_le jb'
  rcases hcases with ⟨hroom, -, hcount, hheld⟩ | ⟨hfull, hcount, rest, -, hbefore, hheld⟩
  · have hcard : jb'.validCount = jb.validCount + 1 := by
      rw [← card_held, ← card_held, hheld, Multiset.card_cons]
    refine ⟨?_, hbuffering, by omega⟩
    rw [JitterBuffer.Counted, hcount, h, hcard]
    rfl
  · have hcard : jb'.validCount = jb.validCount := by
      rw [← card_held, ← card_held, hheld, hbefore, Multiset.card_cons, Multiset.card_cons]
    have hall : jb.validCount = jitterBufferSize := by
      rw [JitterBuffer.validCount, Finset.filter_true_of_mem fun i _ => hfull i, Finset.card_univ, Fintype.card_fin]
    refine ⟨?_, hbuffering, by omega⟩
    rw [JitterBuffer.Counted, hcount, h, hcard]

/-- What a pop does, by the number of packets and the flag. -/
theorem counted_pop (h : jb.Counted) :
    (jitterBufferPop jb).2.Counted ∧
      ((jb.nextPop.played = none ∧ (jitterBufferPop jb).2.buffering = true ∧
          (jb.validCount = 0 ∨ (jb.buffering = true ∧ jb.validCount < 5))) ∨
        (jb.nextPop.played.isSome ∧ (jitterBufferPop jb).2.buffering = false ∧ jb.validCount ≠ 0 ∧
          (jb.buffering = true → 5 ≤ jb.validCount))) := by
  have hcount : jb.count = jb.validCount := h
  rcases pop_cases jb with ⟨hwaits, hnone, hbuffer, hsame⟩ | ⟨i, seq, ⟨hsome, hready⟩, hbest, hpop⟩
  · have hheld := held_congr hbuffer
    refine ⟨?_, Or.inl ⟨by rw [JitterBuffer.nextPop, hnone, Option.map_none], ?_⟩⟩
    · rw [JitterBuffer.Counted, hsame, hcount, ← card_held, ← card_held, hheld]
    · have hplays : ¬ jb.Plays := by
        rcases hwaits with hplays | hbest
        · exact hplays
        · intro hplays
          apply hplays.1
          rw [hcount, bestEntry_eq_none_iff.mp hbest]
          rfl
      by_cases hzero : jb.count = 0
      · refine ⟨by rw [jitterBufferPop, if_pos hzero], Or.inl (by omega)⟩
      · have hwait : jb.buffering = true ∧ jb.count < 5 := by
          by_contra hready
          exact hplays ⟨hzero, hready⟩
        refine ⟨?_, Or.inr ⟨hwait.1, by omega⟩⟩
        rw [jitterBufferPop, if_neg hzero, if_pos hwait]
        exact hwait.1
  · have hheld : jb.held = (jb.buffer i).packet ::ₘ (jb.without i).held := held_without (bestEntry_valid hbest)
    have hcard : jb.validCount = (jb.without i).validCount + 1 := by
      rw [← card_held, ← card_held, hheld, Multiset.card_cons]
    refine ⟨?_, Or.inr ⟨by rw [JitterBuffer.nextPop, hpop]; rfl, by rw [hpop]; rfl, by omega, ?_⟩⟩
    · have hminus : (jb.without i).count = jb.count - 1 := rfl
      rw [hpop]
      change (jb.without i).count = (jb.without i).validCount
      omega
    · intro hbuffering
      by_contra hfew
      exact hready ⟨hbuffering, by omega⟩

/-- What holds between two calls, apart from the first pop. -/
structure Steady (s : PlayLog) : Prop where
  counted : s.jb.Counted
  flag : ∀ l ∈ s.pops.getLast?, s.jb.buffering = l.played.isNone
  filled : FirstFilled s.pops → Cushioned s.pops

theorem Steady.start : Steady PlayLog.start where
  counted := by unfold JitterBuffer.Counted; decide +kernel
  flag := fun l hl => absurd hl (by simp [PlayLog.start])
  filled := by
    intro _
    constructor
    · intro before p after h
      exact absurd h (by simp [PlayLog.start])
    · intro before p between q after h
      exact absurd h (by simp [PlayLog.start])

theorem Steady.push (h : Steady s) (hstep : s.step (.push pkt) = some s') : Steady s' := by
  obtain ⟨hpush, hpops⟩ := play_push hstep
  obtain ⟨hcounted, hbuffering, -⟩ := counted_push h.counted hpush
  refine ⟨hcounted, ?_, by rw [hpops]; exact h.filled⟩
  rw [hpops, hbuffering]
  exact h.flag

/-- After a packet was given and no underrun since, the buffer does not wait. -/
theorem Steady.plays (h : Steady s) (hfirst : FirstFilled s.pops) {before between : List Pop} {p : Pop}
    (hpops : s.pops = before ++ p :: between) (hp : p.played.isSome) (hbetween : ∀ x ∈ between, x.found ≠ 0) :
    s.jb.buffering = false := by
  rcases List.eq_nil_or_concat between with rfl | ⟨rest, l, rfl⟩
  · rw [h.flag p (by simp [hpops])]
    simpa using hp
  · have hl : l.played.isSome := by
      refine (h.filled hfirst).steady before p rest l [] (by simpa using hpops) hp ?_ ?_
      · exact fun x hx => hbetween x (by simp [hx])
      · exact hbetween l (by simp)
    have hlast : s.pops.getLast? = some l := by
      rw [hpops, List.concat_eq_append, ← List.cons_append, ← List.append_assoc, List.getLast?_concat]
    rw [h.flag l hlast]
    simpa using hl

theorem Steady.pop (h : Steady s) (hstep : s.step .pop = some s') : Steady s' := by
  obtain rfl := Option.some.inj hstep
  obtain ⟨hcounted, hcases⟩ := counted_pop h.counted
  refine ⟨hcounted, ?_, ?_⟩
  · intro l hl
    simp only [List.getLast?_append, List.getLast?_singleton, Option.some_or, Option.mem_some_iff] at hl
    subst hl
    rcases hcases with ⟨hnone, hbuffering, -⟩ | ⟨hsome, hbuffering, -⟩
    · rw [hbuffering, hnone, Option.isNone_none]
    · rw [hbuffering]
      simpa using hsome
  · intro hfirst
    have hbefore : FirstFilled s.pops := by
      intro p hp
      apply hfirst
      simp only [List.head?_append, Option.mem_def] at hp ⊢
      rw [hp, Option.some_or]
    constructor
    · intro before p after hsplit hp hlast
      rcases snoc_split hsplit with ⟨rfl, rfl, rfl⟩ | ⟨rest, rfl, hpops⟩
      · rcases List.eq_nil_or_concat s.pops with hnil | ⟨rest, l, hconcat⟩
        · exact hfirst _ (by simp [hnil]) hp
        · -- The pop before gave nothing, and so has set the flag.
          have hl : l ∈ s.pops.getLast? := by simp [hconcat]
          have hwaits := h.flag l hl
          rw [hlast l hl, Option.isNone_none] at hwaits
          rcases hcases with ⟨hnone, -⟩ | ⟨-, -, -, hfive⟩
          · rw [hnone] at hp
            cases hp
          · exact hfive hwaits
      · exact (h.filled hbefore).filled before p rest hpops hp hlast
    · intro before p between q after hsplit hp hbetween hq
      rw [← List.cons_append, ← List.append_assoc] at hsplit
      rcases snoc_split hsplit with ⟨rfl, hpops, rfl⟩ | ⟨rest, rfl, hpops⟩
      · have hplays := h.plays hbefore hpops.symm hp hbetween
        rcases hcases with ⟨-, -, hzero | hwaits⟩ | ⟨hsome, -⟩
        · exact absurd hzero hq
        · rw [hplays] at hwaits
          exact absurd hwaits.1 Bool.false_ne_true
        · exact hsome
      · refine (h.filled hbefore).steady before p between q rest ?_ hp hbetween hq
        rw [hpops, List.append_assoc, List.cons_append]

theorem Steady.step (h : Steady s) {op : JitterOp} (hstep : s.step op = some s') : Steady s' := by
  cases op with
  | push pkt => exact h.push hstep
  | pop => exact h.pop hstep

/-- Calls only add to the pops. -/
theorem pops_grow (hrun : run PlayLog.step s ops = some s') : ∃ more, s'.pops = s.pops ++ more := by
  induction ops generalizing s with
  | nil =>
      cases hrun
      exact ⟨[], (List.append_nil _).symm⟩
  | cons op rest ih =>
      rw [run] at hrun
      obtain ⟨s₁, hstep, hrest⟩ := Option.bind_eq_some_iff.mp hrun
      obtain ⟨more, hmore⟩ := ih hrest
      cases op with
      | push pkt => exact ⟨more, by rw [hmore, (play_push hstep).2]⟩
      | pop =>
          obtain rfl := Option.some.inj hstep
          exact ⟨s.jb.nextPop :: more, by rw [hmore, List.append_assoc, List.singleton_append]⟩

/-- The first pop finds what was pushed before it, and does not wait. -/
theorem first_pop (hcounted : s.jb.Counted) (hflag : s.jb.buffering = false) (hnone : s.pops = [])
    (hrun : run PlayLog.step s ops = some s') :
    (JitterOp.pop ∉ ops ∧ s'.pops = []) ∨
      (JitterOp.pop ∈ ops ∧ ∃ p, s'.pops.head? = some p ∧ (p.played.isSome ↔ p.found ≠ 0) ∧
        p.found = min (s.jb.validCount + (ops.takeWhile JitterOp.isPush).length) jitterBufferSize) := by
  induction ops generalizing s with
  | nil =>
      cases hrun
      exact Or.inl ⟨List.not_mem_nil, hnone⟩
  | cons op rest ih =>
      rw [run] at hrun
      obtain ⟨s₁, hstep, hrest⟩ := Option.bind_eq_some_iff.mp hrun
      cases op with
      | push pkt =>
          obtain ⟨hpush, hpops⟩ := play_push hstep
          obtain ⟨hcounted₁, hflag₁, hvalid⟩ := counted_push hcounted hpush
          rcases ih hcounted₁ (by rw [hflag₁, hflag]) (by rw [hpops, hnone]) hrest with ⟨hno, hpops'⟩ | ⟨hpop, p, hp⟩
          · exact Or.inl ⟨by simpa using hno, hpops'⟩
          · refine Or.inr ⟨List.mem_cons_of_mem _ hpop, p, hp.1, hp.2.1, ?_⟩
            rw [hp.2.2, hvalid, List.takeWhile_cons_of_pos rfl, List.length_cons]
            omega
      | pop =>
          obtain rfl := Option.some.inj hstep
          obtain ⟨more, hmore⟩ := pops_grow hrest
          have hbound := validCount_le s.jb
          refine Or.inr ⟨List.mem_cons_self, s.jb.nextPop, ?_, ?_, ?_⟩
          · rw [hmore, hnone]
            rfl
          · have hfound : s.jb.nextPop.found = s.jb.validCount := rfl
            rcases (counted_pop hcounted).2 with ⟨hplayed, -, hzero | hwaits⟩ | ⟨hplayed, -, hsome, -⟩
            · simp [hplayed, hfound, hzero]
            · rw [hflag] at hwaits
              exact absurd hwaits.1 Bool.false_ne_true
            · simp [hplayed, hfound, hsome]
          · change s.jb.validCount = _
            simp only [List.takeWhile_cons, JitterOp.isPush, Bool.false_eq_true, if_false, List.length_nil]
            omega

/-- **When playout keeps its cushion**: a run does exactly when its first pop comes
before any packet or after five. -/
theorem cushion_iff (ops : List JitterOp) :
    (∀ s, run PlayLog.step PlayLog.start ops = some s → (Cushioned s.pops ↔ StartsFilled ops)) ∧
      ((∀ op ∈ ops, op.Fits) → ∃ s, run PlayLog.step PlayLog.start ops = some s) := by
  refine ⟨?_, play_runs PlayLog.start⟩
  intro s hrun
  have halong := along_true PlayLog.step PlayLog.start ops
  have hsteady := run_some_invariant (fun _ _ _ hs _ hstep => Steady.step hs hstep) Steady.start halong hrun
  have hempty : emptyJitter.validCount = 0 := by decide +kernel
  have hfirst := first_pop Steady.start.counted rfl rfl hrun
  constructor
  · intro hcushioned hpop
    rcases hfirst with ⟨hno, -⟩ | ⟨-, p, hp, hplayed, hfound⟩
    · exact absurd hpop hno
    · obtain ⟨rest, hrest⟩ := List.head?_eq_some_iff.mp hp
      have hfilled := hcushioned.filled [] p rest (by rw [hrest, List.nil_append])
      change p.found = min (emptyJitter.validCount + _) jitterBufferSize at hfound
      rw [hempty, jitterBufferSize] at hfound
      by_cases hzero : p.found = 0
      · exact Or.inl (by omega)
      · have hfive := hfilled (hplayed.mpr hzero) (fun q hq => absurd hq (by simp))
        exact Or.inr (by omega)
  · intro hstarts
    apply hsteady.filled
    intro p hp hsome
    rcases hfirst with ⟨-, hnone⟩ | ⟨hpop, p', hp', hplayed, hfound⟩
    · rw [hnone] at hp
      cases hp
    · obtain rfl := Option.some.inj (hp'.symm.trans hp)
      change p'.found = min (emptyJitter.validCount + _) jitterBufferSize at hfound
      rw [hempty, jitterBufferSize] at hfound
      have hne := hplayed.mp hsome
      rcases hstarts hpop with hzero | hfive <;> omega

/-- The first packet of all is played at once. -/
theorem first_packet_is_not_held_back :
    ¬ ∀ ops : List JitterOp, (∀ op ∈ ops, op.Fits) →
      ∃ s, run PlayLog.step PlayLog.start ops = some s ∧ Cushioned s.pops := by
  intro hall
  obtain ⟨s, hrun, hcushioned⟩ := hall [.push (numberedPacket 1), .pop] (by decide +kernel)
  have hpops : (run PlayLog.step PlayLog.start [.push (numberedPacket 1), .pop]).map PlayLog.pops =
      some [⟨1, some 1⟩] := by decide +kernel
  rw [hrun, Option.map_some, Option.some.injEq] at hpops
  rw [hpops] at hcushioned
  have hfive : 5 ≤ 1 := hcushioned.filled [] ⟨1, some 1⟩ [] rfl rfl (fun q hq => absurd hq (by simp))
  exact absurd hfive (by decide)

end EchoLink
