import EchoLink.AudioPath
import EchoLink.SlotBag
import EchoLink.SerialScan
import Mathlib.Tactic.Abel

/-!
# What a jitter buffer holds

A jitter buffer keeps its packets in an array of twenty entries with a flag for
the entries in use, and counts them besides.  `held` is the multiset of the
packets in it.  `push_cases` and `pop_cases` say what the two operations do to
the array, the counter and the packets held.

With the packets that were pushed, popped and overwritten written down, the two
operations conserve packets: `Balanced` holds after every run of pushes and pops
on a zeroed buffer, whatever the sequence numbers are (`jitter_conserves`).
-/

namespace EchoLink

open CText RecordFile Runs SlotBag SerialScan

/-! ### What a buffer holds -/

/-- What a jitter buffer keeps of an `audio_packet`. -/
structure Packet where
  seqNum : UInt32
  timestamp : UInt32
  payloadSize : UInt16
  payload : Bytes
  deriving DecidableEq

def AudioPacket.packet (pkt : AudioPacket) : Packet where
  seqNum := AudioPacket.seqNum pkt
  timestamp := AudioPacket.timestamp pkt
  payloadSize := AudioPacket.payloadSize pkt
  payload := (AudioPacket.payload pkt).take (AudioPacket.payloadSize pkt).toNat

def JitterEntry.packet (e : JitterEntry) : Packet where
  seqNum := e.seqNum
  timestamp := e.timestamp
  payloadSize := e.payloadSize
  payload := e.payload.take e.payloadSize.toNat

/-- The packet of an entry that is in use. -/
def JitterEntry.slot (e : JitterEntry) : Option Packet := if e.valid then some e.packet else none

def JitterBuffer.slots (jb : JitterBuffer) (i : Fin jitterBufferSize) : Option Packet := (jb.buffer i).slot

/-- The packets that are in the buffer. -/
def JitterBuffer.held (jb : JitterBuffer) : Multiset Packet := bag jb.slots

/-- The number of valid entries. -/
def JitterBuffer.validCount (jb : JitterBuffer) : Nat :=
  (Finset.univ.filter fun i => (jb.buffer i).valid = true).card

/-- The entry that `jitter_buffer_push` writes. -/
def pushIndex (jb : JitterBuffer) : Fin jitterBufferSize := (freeEntry jb).getD (oldestEntry jb)

/-- `jitter_buffer_pop` gets as far as its search. -/
def JitterBuffer.Plays (jb : JitterBuffer) : Prop := jb.count ≠ 0 ∧ ¬ (jb.buffering ∧ jb.count < 5)

variable {jb jb' : JitterBuffer} {pkt : AudioPacket}

theorem slot_isSome_iff (e : JitterEntry) : e.slot.isSome = true ↔ e.valid = true := by
  unfold JitterEntry.slot
  split <;> simp_all

theorem slot_of_valid {e : JitterEntry} (h : e.valid = true) : e.slot = some e.packet := if_pos h

theorem slot_of_free {e : JitterEntry} (h : e.valid = false) : e.slot = none := by
  rw [JitterEntry.slot, h, if_neg Bool.false_ne_true]

theorem card_held (jb : JitterBuffer) : jb.held.card = jb.validCount := by
  rw [JitterBuffer.held, card_bag, JitterBuffer.validCount]
  simp only [JitterBuffer.slots, slot_isSome_iff]

theorem validCount_le (jb : JitterBuffer) : jb.validCount ≤ jitterBufferSize := by
  have hle := Finset.card_filter_le Finset.univ fun i => (jb.buffer i).valid = true
  rwa [Finset.card_univ, Fintype.card_fin] at hle

theorem payload_length (pkt : AudioPacket) : (AudioPacket.payload pkt).length = audioPayloadSize := by
  have hlen : pkt.val.length = 2068 := pkt.property
  simp [AudioPacket.payload, hlen, audioPayloadSize]

/-! ### The two operations -/

theorem freeEntry_some {i : Fin jitterBufferSize} (h : freeEntry jb = some i) : (jb.buffer i).valid = false := by
  simpa using List.find?_some h

theorem freeEntry_none_iff : freeEntry jb = none ↔ ∀ i, (jb.buffer i).valid = true := by
  simp [freeEntry, List.find?_eq_none]

/-- **`jitter_buffer_push`** writes the packet to one entry. -/
theorem push_spec (jb : JitterBuffer) (hpkt : (AudioPacket.payloadSize pkt).toNat ≤ audioPayloadSize) :
    ∃ jb', jitterBufferPush jb pkt = some jb' ∧
      jb'.slots = Function.update jb.slots (pushIndex jb) (some pkt.packet) ∧
      jb'.count = (if (freeEntry jb).isSome then jb.count + 1 else jb.count) ∧
      jb'.buffering = jb.buffering := by
  refine ⟨_, if_pos hpkt, ?_, rfl, rfl⟩
  funext j
  simp only [JitterBuffer.slots]
  by_cases hj : j = pushIndex jb
  · subst hj
    rw [Function.update_self, pushIndex, Function.update_self]
    have hlen : ((AudioPacket.payload pkt).take (AudioPacket.payloadSize pkt).toNat).length =
        (AudioPacket.payloadSize pkt).toNat := by
      rw [List.length_take, payload_length]
      omega
    simp only [JitterEntry.slot, JitterEntry.packet, AudioPacket.packet, if_true]
    rw [List.take_left' hlen]
  · have hj' : j ≠ (freeEntry jb).getD (oldestEntry jb) := hj
    rw [Function.update_of_ne hj, Function.update_of_ne hj']
    rfl

/-- A push adds the packet while there is room, and else overwrites one. -/
theorem push_cases (jb : JitterBuffer) (hpkt : (AudioPacket.payloadSize pkt).toNat ≤ audioPayloadSize) :
    ∃ jb', jitterBufferPush jb pkt = some jb' ∧
      ((jb.held.card < jitterBufferSize ∧ jb.slots (pushIndex jb) = none ∧
          jb'.count = jb.count + 1 ∧ jb'.held = pkt.packet ::ₘ jb.held) ∨
        ((∀ i, (jb.buffer i).valid = true) ∧ jb'.count = jb.count ∧
          ∃ rest, jb.slots (pushIndex jb) = some (jb.buffer (oldestEntry jb)).packet ∧
            jb.held = (jb.buffer (oldestEntry jb)).packet ::ₘ rest ∧ jb'.held = pkt.packet ::ₘ rest)) := by
  obtain ⟨jb', hpush, hslots, hcount, -⟩ := push_spec jb hpkt
  refine ⟨jb', hpush, ?_⟩
  have hbefore := bag_split jb.slots (pushIndex jb)
  have hafter : jb'.held = {pkt.packet} + bag (Function.update jb.slots (pushIndex jb) none) := by
    rw [JitterBuffer.held, hslots, bag_write]
    rfl
  cases hfree : freeEntry jb with
  | some i =>
      have hinvalid := freeEntry_some hfree
      have hslot : jb.slots (pushIndex jb) = none := by
        rw [pushIndex, hfree]
        exact slot_of_free hinvalid
      refine Or.inl ⟨?_, hslot, by rw [hcount, hfree]; rfl, ?_⟩
      · have hlt := Finset.card_lt_univ_of_notMem (s := Finset.univ.filter fun i => (jb.buffer i).valid = true)
          (x := i) (by simp [hinvalid])
        rwa [Fintype.card_fin, ← JitterBuffer.validCount, ← card_held] at hlt
      · rw [hafter, ← Multiset.singleton_add, JitterBuffer.held, hbefore, hslot]
        simp [ofSlot]
  | none =>
      have hfull := freeEntry_none_iff.mp hfree
      have hindex : pushIndex jb = oldestEntry jb := by rw [pushIndex, hfree, Option.getD_none]
      have hslot : jb.slots (pushIndex jb) = some (jb.buffer (oldestEntry jb)).packet := by
        rw [hindex]
        exact slot_of_valid (hfull _)
      refine Or.inr ⟨hfull, by rw [hcount, hfree]; rfl, _, hslot, ?_, by rw [hafter, Multiset.singleton_add]⟩
      rw [JitterBuffer.held, hbefore, hslot]
      exact Multiset.singleton_add _ _

/-- An entry with its sequence number, as the searches keep it. -/
def JitterBuffer.numbered (jb : JitterBuffer) (i : Fin jitterBufferSize) : Fin jitterBufferSize × UInt32 :=
  (i, (jb.buffer i).seqNum)

/-- The comparison of the searches. -/
def numberedBefore (x y : Fin jitterBufferSize × UInt32) : Bool := seqBefore x.2 y.2

/-- The valid entries in the order of the array. -/
def JitterBuffer.validEntries (jb : JitterBuffer) : List (Fin jitterBufferSize × UInt32) :=
  ((List.finRange jitterBufferSize).filter fun i => (jb.buffer i).valid).map jb.numbered

theorem mem_validEntries {x : Fin jitterBufferSize × UInt32} :
    x ∈ jb.validEntries ↔ ∃ i, (jb.buffer i).valid = true ∧ jb.numbered i = x := by
  simp [JitterBuffer.validEntries]

/-- The search of `jitter_buffer_pop` is a scan of the valid entries. -/
theorem bestEntry_eq (jb : JitterBuffer) :
    bestEntry jb = jb.validEntries.foldl (lesserOpt numberedBefore) none := by
  have hround : betterEntry jb = fun best i =>
      if (jb.buffer i).valid then lesserOpt numberedBefore best (jb.numbered i) else best := by
    funext best i
    unfold betterEntry
    split
    · cases best with
      | none => rfl
      | some b =>
          simp only [lesserOpt, lesser, numberedBefore, JitterBuffer.numbered]
          exact (apply_ite some _ _ _).symm
    · rfl
  rw [bestEntry, JitterBuffer.validEntries, List.foldl_map, List.foldl_filter, hround]

theorem bestEntry_eq_none_iff : bestEntry jb = none ↔ jb.validCount = 0 := by
  rw [bestEntry_eq, foldl_lesserOpt_eq_none, JitterBuffer.validCount, Finset.card_eq_zero,
    Finset.filter_eq_empty_iff, List.eq_nil_iff_forall_not_mem]
  constructor
  · intro h i _ hi
    exact h _ (mem_validEntries.mpr ⟨i, hi, rfl⟩)
  · intro h x hx
    obtain ⟨i, hi, _⟩ := mem_validEntries.mp hx
    exact h (Finset.mem_univ i) hi

/-- The buffer without one of its entries. -/
def JitterBuffer.without (jb : JitterBuffer) (i : Fin jitterBufferSize) : JitterBuffer where
  buffer := Function.update jb.buffer i { jb.buffer i with valid := false }
  count := jb.count - 1
  buffering := false

theorem without_slots (jb : JitterBuffer) (i : Fin jitterBufferSize) :
    (jb.without i).slots = Function.update jb.slots i none := by
  funext j
  simp only [JitterBuffer.slots, JitterBuffer.without]
  by_cases hj : j = i
  · subst hj
    rw [Function.update_self, Function.update_self]
    rfl
  · rw [Function.update_of_ne hj, Function.update_of_ne hj]
    rfl

/-- **`jitter_buffer_pop`** takes the entry its search finds, or changes nothing
but the buffering flag. -/
theorem pop_cases (jb : JitterBuffer) :
    ((¬ jb.Plays ∨ bestEntry jb = none) ∧ (jitterBufferPop jb).1 = none ∧
        (jitterBufferPop jb).2.buffer = jb.buffer ∧ (jitterBufferPop jb).2.count = jb.count) ∨
      ∃ i seq, jb.Plays ∧ bestEntry jb = some (i, seq) ∧
        jitterBufferPop jb = (some (jb.buffer i), jb.without i) := by
  unfold jitterBufferPop JitterBuffer.Plays
  split
  · rename_i hzero
    exact Or.inl ⟨Or.inl fun h => h.1 hzero, rfl, rfl, rfl⟩
  · rename_i hcount
    split
    · rename_i hwait
      exact Or.inl ⟨Or.inl fun h => h.2 hwait, rfl, rfl, rfl⟩
    · rename_i hready
      split
      · rename_i hnone
        exact Or.inl ⟨Or.inr hnone, rfl, rfl, rfl⟩
      · rename_i i seq hbest
        exact Or.inr ⟨i, seq, ⟨hcount, hready⟩, hbest, rfl⟩

/-! ### Conservation -/

/-- A call on a jitter buffer. -/
inductive JitterOp where
  | push (pkt : AudioPacket)
  | pop

/-- A jitter buffer with the packets that were pushed, popped and overwritten. -/
structure JitterLog where
  jb : JitterBuffer
  pushed : Multiset Packet
  popped : Multiset Packet
  overwritten : Multiset Packet

def JitterLog.start : JitterLog := ⟨emptyJitter, 0, 0, 0⟩

def JitterLog.step (s : JitterLog) : JitterOp → Option JitterLog
  | .push pkt =>
      (jitterBufferPush s.jb pkt).map fun jb =>
        { s with
          jb := jb
          pushed := pkt.packet ::ₘ s.pushed
          overwritten := s.overwritten + ofSlot (s.jb.slots (pushIndex s.jb)) }
  | .pop =>
      some { s with
        jb := (jitterBufferPop s.jb).2
        popped := s.popped + ofSlot ((jitterBufferPop s.jb).1.map JitterEntry.packet) }

/-- The payload of a packet that is pushed fits. -/
def JitterOp.Fits : JitterOp → Prop
  | .push pkt => (AudioPacket.payloadSize pkt).toNat ≤ audioPayloadSize
  | .pop => True

instance : DecidablePred JitterOp.Fits
  | .push pkt => inferInstanceAs (Decidable ((AudioPacket.payloadSize pkt).toNat ≤ audioPayloadSize))
  | .pop => inferInstanceAs (Decidable True)

/-- What holds between two calls. -/
structure Conserved (s : JitterLog) : Prop where
  count : s.jb.count = s.jb.validCount
  bound : 0 ≤ s.jb.count ∧ s.jb.count ≤ jitterBufferSize
  balance : s.pushed = s.popped + s.jb.held + s.overwritten
  overwrites : ∀ pkt s', s.step (.push pkt) = some s' → s'.overwritten ≠ s.overwritten →
    ∀ i, (s.jb.buffer i).valid = true
  found : s.jb.Plays → bestEntry s.jb ≠ none

/-- The counter is right, and nothing is lost. -/
structure Balanced (s : JitterLog) : Prop where
  count : s.jb.count = s.jb.held.card
  balance : s.pushed = s.popped + s.jb.held + s.overwritten

theorem Balanced.start : Balanced JitterLog.start where
  count := by rw [card_held]; decide
  balance := by
    have hempty : emptyJitter.held = 0 := by
      rw [← Multiset.card_eq_zero, card_held]
      decide
    simp [JitterLog.start, hempty]

variable {s s' : JitterLog}

theorem Balanced.push (h : Balanced s) (hpkt : JitterOp.Fits (.push pkt)) :
    ∃ s', s.step (.push pkt) = some s' ∧ Balanced s' := by
  obtain ⟨jb', hpush, hcases⟩ := push_cases s.jb hpkt
  refine ⟨_, by rw [JitterLog.step, hpush, Option.map_some], ?_⟩
  rcases hcases with ⟨-, hslot, hcount, hheld⟩ | ⟨-, hcount, rest, hslot, hbefore, hheld⟩
  · refine ⟨?_, ?_⟩
    · rw [hcount, h.count, hheld, Multiset.card_cons]
      rfl
    · simp only [hheld, hslot, ofSlot, Option.elim_none, Multiset.add_zero, h.balance]
      simp only [Multiset.add_cons, Multiset.cons_add]
  · refine ⟨?_, ?_⟩
    · rw [hcount, h.count, hheld, hbefore, Multiset.card_cons, Multiset.card_cons]
    · simp only [hheld, hslot, ofSlot, Option.elim_some, h.balance, hbefore, ← Multiset.singleton_add]
      abel

theorem held_congr (h : jb'.buffer = jb.buffer) : jb'.held = jb.held := by
  have hslots : jb'.slots = jb.slots := by
    funext i
    simp only [JitterBuffer.slots, h]
  rw [JitterBuffer.held, JitterBuffer.held, hslots]

theorem held_without {i : Fin jitterBufferSize} (h : (jb.buffer i).valid = true) :
    jb.held = (jb.buffer i).packet ::ₘ (jb.without i).held := by
  have hslot : jb.slots i = some (jb.buffer i).packet := slot_of_valid h
  rw [JitterBuffer.held, JitterBuffer.held, bag_split jb.slots i, without_slots, hslot]
  exact Multiset.singleton_add _ _

theorem Balanced.pop (h : Balanced s) : ∃ s', s.step .pop = some s' ∧ Balanced s' := by
  rcases pop_cases s.jb with ⟨-, hnone, hbuffer, hcount⟩ | ⟨i, seq, -, hbest, hpop⟩
  · have hheld := held_congr hbuffer
    refine ⟨_, rfl, ?_, ?_⟩
    · rw [hcount, hheld, h.count]
    · simp only [hnone, Option.map_none, ofSlot, Option.elim_none, Multiset.add_zero, hheld]
      exact h.balance
  · have hheld : s.jb.held = (s.jb.buffer i).packet ::ₘ (s.jb.without i).held :=
      held_without (bestEntry_valid hbest)
    refine ⟨⟨s.jb.without i, s.pushed, s.popped + {(s.jb.buffer i).packet}, s.overwritten⟩, ?_, ?_, ?_⟩
    · rw [JitterLog.step, hpop]
      rfl
    · have hcount : (s.jb.without i).count = s.jb.count - 1 := rfl
      have hcard : s.jb.held.card = (s.jb.without i).held.card + 1 := by rw [hheld, Multiset.card_cons]
      simp only [hcount, h.count]
      omega
    · calc s.pushed = s.popped + ({(s.jb.buffer i).packet} + (s.jb.without i).held) + s.overwritten := by
            rw [h.balance, hheld, Multiset.singleton_add]
        _ = s.popped + {(s.jb.buffer i).packet} + (s.jb.without i).held + s.overwritten := by abel

theorem Balanced.conserved (h : Balanced s) : Conserved s where
  count := by rw [h.count, card_held]
  bound := by
    have hle := validCount_le s.jb
    rw [h.count, card_held]
    omega
  balance := h.balance
  overwrites := by
    intro pkt s' hstep hover
    obtain ⟨jb', hpush, rfl⟩ := Option.map_eq_some_iff.mp hstep
    refine freeEntry_none_iff.mp ?_
    cases hfree : freeEntry s.jb with
    | none => rfl
    | some i =>
        have hslot : s.jb.slots (pushIndex s.jb) = none := by
          rw [pushIndex, hfree]
          exact slot_of_free (freeEntry_some hfree)
        refine absurd ?_ hover
        simp [hslot, ofSlot]
  found := by
    intro hplays hnone
    refine hplays.1 ?_
    rw [h.count, card_held, bestEntry_eq_none_iff.mp hnone]
    rfl

theorem Balanced.step (h : Balanced s) {op : JitterOp} (hop : op.Fits) :
    ∃ s', s.step op = some s' ∧ Balanced s' := by
  cases op with
  | push pkt => exact h.push hop
  | pop => exact h.pop

/-- **The jitter buffer neither loses, invents nor duplicates packets**, in any
run of pushes and pops. -/
theorem jitter_conserves (ops : List JitterOp) (h : ∀ op ∈ ops, op.Fits) :
    ∃ s, run JitterLog.step JitterLog.start ops = some s ∧ Conserved s := by
  have halong : Along JitterLog.step (fun _ op => op.Fits) JitterLog.start ops := along_of_forall h
  obtain ⟨s, hrun, hs⟩ := run_invariant (fun _ _ hs hop => Balanced.step hs hop) Balanced.start halong
  exact ⟨s, hrun, hs.conserved⟩

/-- A packet without a payload that has a number below 256. -/
def numberedPacket (n : UInt8) : AudioPacket := fit audioPacketSize [0, 0, 0, 0, 0, 0, 0, 0, n]

theorem jitter_conserves_push_pop :
    ∃ s, run JitterLog.step JitterLog.start [.push (numberedPacket 1), .push (numberedPacket 1), .pop] = some s ∧
      Conserved s := by
  apply jitter_conserves
  decide +kernel

end EchoLink
