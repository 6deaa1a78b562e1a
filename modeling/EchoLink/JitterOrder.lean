import EchoLink.JitterBuffers
import EchoLink.Eviction

/-!
# The order of a jitter buffer

Both searches of a jitter buffer compare sequence numbers by the sign of their
32-bit difference.  If the numbers of the valid entries are inside one window of
half the circle, the searches find an entry that comes first in the window, also
where the numbers wrap around; so pops give packets in serial order
(`jitter_sorts`).

A push into a full buffer overwrites the oldest packet held, even by one that is
older still.  So after many pushes the buffer holds the last packet together with
the newest of the others (`buffer_keeps_last_and_newest`).
-/

namespace EchoLink

open CText RecordFile Runs SlotBag SerialScan

variable {jb jb' : JitterBuffer} {pkt : AudioPacket}

/-! ### Serial order -/

/-- The valid entries are inside one window. -/
def JitterBuffer.Windowed (b : UInt32) (jb : JitterBuffer) : Prop :=
  ∀ i, (jb.buffer i).valid = true → InWindow b (jb.buffer i).seqNum

/-- The place of a packet in the window. -/
def Packet.place (b : UInt32) (p : Packet) : Nat := serial b p.seqNum

variable {b : UInt32} {i : Fin jitterBufferSize} {seq : UInt32}

theorem seqBefore_iff {x y : UInt32} (hx : InWindow b x) (hy : InWindow b y) :
    seqBefore x y = true ↔ serial b x < serial b y := by
  rw [← sub_neg_iff hx hy, seqBefore, decide_eq_true_iff]

/-- The entry that `jitter_buffer_pop` finds comes first in the window. -/
theorem bestEntry_least (hw : jb.Windowed b) (h : bestEntry jb = some (i, seq)) {j : Fin jitterBufferSize}
    (hj : (jb.buffer j).valid = true) : serial b (jb.buffer i).seqNum ≤ serial b (jb.buffer j).seqNum := by
  have hcompares : Compares numberedBefore (fun x => serial b x.2) jb.validEntries := by
    intro x hx y hy
    obtain ⟨m, hm, rfl⟩ := mem_validEntries.mp hx
    obtain ⟨n, hn, rfl⟩ := mem_validEntries.mp hy
    exact seqBefore_iff (hw m hm) (hw n hn)
  rw [bestEntry_eq] at h
  rcases foldl_lesserOpt hcompares with ⟨-, hnone⟩ | ⟨x, hx, hsome, hleast⟩
  · rw [hnone] at h
    cases h
  · rw [hsome, Option.some.injEq] at h
    subst h
    obtain ⟨m, -, hm⟩ := mem_validEntries.mp hx
    obtain ⟨rfl, rfl⟩ := Prod.mk.inj hm
    exact hleast _ (mem_validEntries.mpr ⟨j, hj, rfl⟩)

/-- The entry that a full buffer gives up comes first in the window. -/
theorem oldestEntry_least (hw : jb.Windowed b) (hfull : ∀ i, (jb.buffer i).valid = true)
    (j : Fin jitterBufferSize) :
    serial b (jb.buffer (oldestEntry jb)).seqNum ≤ serial b (jb.buffer j).seqNum := by
  let first : Fin jitterBufferSize := ⟨0, by decide⟩
  have hcons : first :: (List.finRange jitterBufferSize).tail = List.finRange jitterBufferSize := rfl
  have hall : jb.numbered first :: (List.finRange jitterBufferSize).tail.map jb.numbered =
      (List.finRange jitterBufferSize).map jb.numbered := by rw [← List.map_cons, hcons]
  have hcompares : Compares numberedBefore (fun x => serial b x.2)
      (jb.numbered first :: (List.finRange jitterBufferSize).tail.map jb.numbered) := by
    rw [hall]
    intro x hx y hy
    obtain ⟨m, -, rfl⟩ := List.mem_map.mp hx
    obtain ⟨n, -, rfl⟩ := List.mem_map.mp hy
    exact seqBefore_iff (hw m (hfull m)) (hw n (hfull n))
  obtain ⟨hmem, hleast⟩ := foldl_lesser_least hcompares
  have hscan : (((List.finRange jitterBufferSize).tail.map jb.numbered).foldl (lesser numberedBefore)
      (jb.numbered first)).1 = oldestEntry jb := by
    rw [List.foldl_map]
    rfl
  rw [hall] at hmem
  obtain ⟨m, -, hm⟩ := List.mem_map.mp hmem
  rw [← hm] at hscan hleast
  have hm' : m = oldestEntry jb := hscan
  subst hm'
  exact hleast (jb.numbered j) (by rw [hall]; exact List.mem_map_of_mem (List.mem_finRange j))

/-- What several calls of `jitter_buffer_pop` give. -/
def popAll : Nat → JitterBuffer → List JitterEntry
  | 0, _ => []
  | n + 1, jb => (jitterBufferPop jb).1.toList ++ popAll n (jitterBufferPop jb).2

theorem Windowed.congr (h : jb.Windowed b) (hbuffer : jb'.buffer = jb.buffer) : jb'.Windowed b := by
  intro j
  rw [hbuffer]
  exact h j

theorem without_valid {j : Fin jitterBufferSize} (h : ((jb.without i).buffer j).valid = true) :
    (jb.without i).buffer j = jb.buffer j ∧ (jb.buffer j).valid = true := by
  simp only [JitterBuffer.without] at h ⊢
  by_cases hj : j = i
  · subst hj
    rw [Function.update_self] at h
    cases h
  · rw [Function.update_of_ne hj] at h ⊢
    exact ⟨rfl, h⟩

/-- What is popped was a valid entry. -/
theorem mem_popAll {n : Nat} {e : JitterEntry} (h : e ∈ popAll n jb) :
    ∃ i, (jb.buffer i).valid = true ∧ e = jb.buffer i := by
  induction n generalizing jb with
  | zero => cases h
  | succ n ih =>
      rw [popAll] at h
      rcases pop_cases jb with ⟨-, hnone, hbuffer, -⟩ | ⟨i, seq, -, hbest, hpop⟩
      · rw [hnone, Option.toList_none, List.nil_append] at h
        obtain ⟨j, hj, rfl⟩ := ih h
        rw [hbuffer] at hj ⊢
        exact ⟨j, hj, rfl⟩
      · rw [hpop, Option.toList_some, List.singleton_append] at h
        rcases List.mem_cons.mp h with rfl | h
        · exact ⟨i, bestEntry_valid hbest, rfl⟩
        · obtain ⟨j, hj, rfl⟩ := ih h
          obtain ⟨hsame, hvalid⟩ := without_valid hj
          exact ⟨j, hvalid, hsame⟩

/-- **Popped in serial order.** -/
theorem popAll_sorted (hw : jb.Windowed b) (n : Nat) :
    (popAll n jb).Pairwise fun e e' => serial b e.seqNum ≤ serial b e'.seqNum := by
  induction n generalizing jb with
  | zero => exact List.Pairwise.nil
  | succ n ih =>
      rw [popAll]
      rcases pop_cases jb with ⟨-, hnone, hbuffer, -⟩ | ⟨i, seq, -, hbest, hpop⟩
      · rw [hnone, Option.toList_none, List.nil_append]
        exact ih (Windowed.congr hw hbuffer)
      · rw [hpop, Option.toList_some, List.singleton_append, List.pairwise_cons]
        refine ⟨?_, ih ?_⟩
        · intro e he
          obtain ⟨j, hj, rfl⟩ := mem_popAll he
          obtain ⟨hsame, hvalid⟩ := without_valid hj
          rw [hsame]
          exact bestEntry_least hw hbest hvalid
        · intro j hj
          obtain ⟨hsame, hvalid⟩ := without_valid hj
          rw [hsame]
          exact hw j hvalid

theorem popAll_empty (h : jb.count = 0) (n : Nat) : popAll n jb = [] := by
  induction n generalizing jb with
  | zero => rfl
  | succ n ih =>
      have hpop : jitterBufferPop jb = (none, { jb with buffering := true }) := if_pos h
      have hrest : popAll n { jb with buffering := true } = [] := ih h
      rw [popAll, hpop, hrest]
      rfl

/-- **A buffer that plays is drained**: enough pops give everything it holds. -/
theorem popAll_held {n : Nat} (hcount : jb.count = jb.held.card) (hplays : jb.Plays) (hn : jb.held.card ≤ n) :
    (↑((popAll n jb).map JitterEntry.packet) : Multiset Packet) = jb.held := by
  induction n generalizing jb with
  | zero =>
      refine absurd ?_ hplays.1
      rw [hcount]
      omega
  | succ n ih =>
      rw [popAll]
      rcases pop_cases jb with ⟨hnone | hnone, -⟩ | ⟨i, seq, -, hbest, hpop⟩
      · exact absurd hplays hnone
      · refine absurd ?_ hplays.1
        rw [hcount, card_held, bestEntry_eq_none_iff.mp hnone]
        rfl
      · have hheld : jb.held = (jb.buffer i).packet ::ₘ (jb.without i).held :=
          held_without (bestEntry_valid hbest)
        have hcard : jb.held.card = (jb.without i).held.card + 1 := by rw [hheld, Multiset.card_cons]
        have hcount' : (jb.without i).count = (jb.without i).held.card := by
          have hminus : (jb.without i).count = jb.count - 1 := rfl
          omega
        rw [hpop, Option.toList_some, List.singleton_append, List.map_cons, ← Multiset.cons_coe, hheld]
        congr 1
        by_cases hzero : (jb.without i).count = 0
        · have hnothing : (jb.without i).held = 0 := by
            rw [← Multiset.card_eq_zero]
            omega
          rw [popAll_empty hzero, hnothing]
          rfl
        · have hle : (jb.without i).held.card ≤ n := by omega
          exact ih hcount' ⟨hzero, fun h => absurd h.1 Bool.false_ne_true⟩ hle

/-- The number of a packet that is pushed is inside the window. -/
def JitterOp.Windowed (b : UInt32) : JitterOp → Prop
  | .push pkt => InWindow b (AudioPacket.seqNum pkt)
  | .pop => True

/-- The entry that was written holds the packet. -/
theorem push_buffer (h : jitterBufferPush jb pkt = some jb') (j : Fin jitterBufferSize) :
    (j = pushIndex jb ∧ (jb'.buffer j).seqNum = AudioPacket.seqNum pkt) ∨
      (j ≠ pushIndex jb ∧ jb'.buffer j = jb.buffer j) := by
  simp only [jitterBufferPush] at h
  split at h
  · cases h
    by_cases hj : j = pushIndex jb
    · refine Or.inl ⟨hj, ?_⟩
      subst hj
      simp only [pushIndex, Function.update_self]
    · have hj' : j ≠ (freeEntry jb).getD (oldestEntry jb) := hj
      exact Or.inr ⟨hj, Function.update_of_ne hj' _ _⟩
  · cases h

theorem Windowed.push (hw : jb.Windowed b) (hpkt : InWindow b (AudioPacket.seqNum pkt))
    (h : jitterBufferPush jb pkt = some jb') : jb'.Windowed b := by
  intro j hj
  rcases push_buffer h j with ⟨-, hseq⟩ | ⟨-, hsame⟩
  · rw [hseq]
    exact hpkt
  · rw [hsame] at hj ⊢
    exact hw j hj

theorem Windowed.pop (hw : jb.Windowed b) : (jitterBufferPop jb).2.Windowed b := by
  rcases pop_cases jb with ⟨-, -, hbuffer, -⟩ | ⟨i, seq, -, -, hpop⟩
  · exact Windowed.congr hw hbuffer
  · rw [hpop]
    intro j hj
    obtain ⟨hsame, hvalid⟩ := without_valid hj
    rw [hsame]
    exact hw j hvalid

/-- A run whose packets are inside the window leaves a buffer inside the window. -/
theorem run_windowed {ops : List JitterOp} (hfits : ∀ op ∈ ops, op.Fits) (hops : ∀ op ∈ ops, op.Windowed b) :
    ∃ s, run JitterLog.step JitterLog.start ops = some s ∧ Balanced s ∧ s.jb.Windowed b := by
  have halong : Along JitterLog.step (fun _ op => op.Fits ∧ op.Windowed b) JitterLog.start ops :=
    along_of_forall fun op hop => ⟨hfits op hop, hops op hop⟩
  have hstart : JitterLog.start.jb.Windowed b := by
    intro j hj
    cases hj
  refine run_invariant ?_ ⟨Balanced.start, hstart⟩ halong
  rintro s op ⟨hs, hw⟩ ⟨hfit, hop⟩
  obtain ⟨s', hstep, hs'⟩ := hs.step hfit
  refine ⟨s', hstep, hs', ?_⟩
  cases op with
  | push pkt =>
      obtain ⟨jb', hpush, rfl⟩ := Option.map_eq_some_iff.mp hstep
      exact Windowed.push hw hop hpush
  | pop =>
      cases hstep
      exact Windowed.pop hw

/-- **The jitter buffer sorts across the wrap-around.**  Inside a window a pop
takes out an entry that comes first and a push into a full buffer overwrites
one, so that pops give packets in serial order; a buffer that was filled by any
run of calls and plays is drained in serial order. -/
theorem jitter_sorts (b : UInt32) :
    (∀ jb : JitterBuffer, jb.Windowed b →
      (∀ e jb', jitterBufferPop jb = (some e, jb') → ∃ i, (jb.buffer i).valid = true ∧ e = jb.buffer i ∧
        (∀ j, (jb.buffer j).valid = true → serial b e.seqNum ≤ serial b (jb.buffer j).seqNum) ∧
        jb'.buffer = Function.update jb.buffer i { jb.buffer i with valid := false }) ∧
      (∀ pkt jb', (∀ j, (jb.buffer j).valid = true) → jitterBufferPush jb pkt = some jb' →
        ∃ i, (∀ j, serial b (jb.buffer i).seqNum ≤ serial b (jb.buffer j).seqNum) ∧
          jb'.slots = Function.update jb.slots i (some pkt.packet)) ∧
      ∀ n, (popAll n jb).Pairwise fun e e' => serial b e.seqNum ≤ serial b e'.seqNum) ∧
    ∀ ops : List JitterOp, (∀ op ∈ ops, op.Fits) → (∀ op ∈ ops, op.Windowed b) →
      ∃ s, run JitterLog.step JitterLog.start ops = some s ∧
        ∀ n, jitterBufferSize ≤ n →
          ((popAll n s.jb).Pairwise fun e e' => serial b e.seqNum ≤ serial b e'.seqNum) ∧
          (s.jb.Plays → (↑((popAll n s.jb).map JitterEntry.packet) : Multiset Packet) = s.jb.held) := by
  refine ⟨fun jb hw => ⟨?_, ?_, fun n => popAll_sorted hw n⟩, ?_⟩
  · intro e jb' hpop
    rcases pop_cases jb with ⟨-, hnone, -⟩ | ⟨i, seq, -, hbest, hsome⟩
    · rw [hpop] at hnone
      cases hnone
    · rw [hpop] at hsome
      obtain ⟨he, rfl⟩ := Prod.mk.inj hsome
      obtain rfl := Option.some.inj he
      exact ⟨i, bestEntry_valid hbest, rfl, fun j hj => bestEntry_least hw hbest hj, rfl⟩
  · intro pkt jb' hfull hpush
    have hfits : (AudioPacket.payloadSize pkt).toNat ≤ audioPayloadSize := by
      by_contra hlong
      rw [jitterBufferPush] at hpush
      simp only [if_neg hlong] at hpush
      cases hpush
    obtain ⟨jb₁, hpush₁, hslots, -⟩ := push_spec jb hfits
    rw [hpush, Option.some.injEq] at hpush₁
    subst hpush₁
    refine ⟨pushIndex jb, ?_, hslots⟩
    rw [pushIndex, freeEntry_none_iff.mpr hfull]
    exact oldestEntry_least hw hfull
  · intro ops hfits hops
    obtain ⟨s, hrun, hs, hw⟩ := run_windowed hfits hops
    refine ⟨s, hrun, fun n hn => ⟨popAll_sorted hw n, fun hplays => popAll_held hs.count hplays ?_⟩⟩
    rw [card_held]
    exact Nat.le_trans (validCount_le s.jb) hn

/-! ### An overfull buffer -/

/-- A push is an arrival at a bag of limited capacity. -/
theorem push_arrives (hw : jb.Windowed b)
    (hpkt : (AudioPacket.payloadSize pkt).toNat ≤ audioPayloadSize) :
    ∃ jb', jitterBufferPush jb pkt = some jb' ∧
      Eviction.Arrives (Packet.place b) jitterBufferSize jb.held pkt.packet jb'.held := by
  obtain ⟨jb', hpush, hcases⟩ := push_cases jb hpkt
  refine ⟨jb', hpush, ?_⟩
  rcases hcases with ⟨hroom, -, -, hheld⟩ | ⟨hfull, -, rest, -, hbefore, hheld⟩
  · rw [hheld]
    exact Eviction.Arrives.add hroom
  · rw [hheld]
    refine Eviction.Arrives.evict _ rest ?_ hbefore ?_
    · have hall : (Finset.univ.filter fun i => (jb.buffer i).valid = true) = Finset.univ :=
        Finset.filter_true_of_mem fun i _ => hfull i
      rw [card_held, JitterBuffer.validCount, hall, Finset.card_univ, Fintype.card_fin]
    · intro x hx
      obtain ⟨i, hi⟩ := mem_bag.mp hx
      have hslot : jb.slots i = some (jb.buffer i).packet := slot_of_valid (hfull i)
      rw [hslot, Option.some.injEq] at hi
      subst hi
      exact oldestEntry_least hw hfull i

/-- Pushes are arrivals, and have an outcome if every payload fits. -/
theorem pushes_arrive {pkts : List AudioPacket} (hw : jb.Windowed b)
    (hfits : ∀ pkt ∈ pkts, (AudioPacket.payloadSize pkt).toNat ≤ audioPayloadSize)
    (hpkts : ∀ pkt ∈ pkts, InWindow b (AudioPacket.seqNum pkt)) :
    ∃ jb', run jitterBufferPush jb pkts = some jb' ∧
      Eviction.Arrivals (Packet.place b) jitterBufferSize jb.held (pkts.map AudioPacket.packet) jb'.held := by
  induction pkts generalizing jb with
  | nil => exact ⟨jb, rfl, Eviction.Arrivals.nil _⟩
  | cons pkt rest ih =>
      obtain ⟨jb₁, hpush, hfirst⟩ := push_arrives hw (hfits pkt List.mem_cons_self)
      have hw₁ := Windowed.push hw (hpkts pkt List.mem_cons_self) hpush
      obtain ⟨jb₂, hrun, hothers⟩ := ih hw₁ (fun p hp => hfits p (List.mem_cons_of_mem _ hp))
        fun p hp => hpkts p (List.mem_cons_of_mem _ hp)
      refine ⟨jb₂, ?_, Eviction.Arrivals.cons hfirst hothers⟩
      rw [run, hpush, Option.bind_some, hrun]

theorem push_isSome_iff : (jitterBufferPush jb pkt).isSome = true ↔
    (AudioPacket.payloadSize pkt).toNat ≤ audioPayloadSize := by
  rw [jitterBufferPush]
  split <;> simp_all

/-- A payload that does not fit leaves its entry. -/
theorem fits_of_pushes {pkts : List AudioPacket} (h : run jitterBufferPush jb pkts = some jb') :
    ∀ pkt ∈ pkts, (AudioPacket.payloadSize pkt).toNat ≤ audioPayloadSize := by
  induction pkts generalizing jb with
  | nil => exact fun pkt hpkt => absurd hpkt List.not_mem_nil
  | cons first rest ih =>
      rw [run] at h
      obtain ⟨jb₁, hpush, hrest⟩ := Option.bind_eq_some_iff.mp h
      intro pkt hpkt
      rcases List.mem_cons.mp hpkt with rfl | hpkt
      · exact push_isSome_iff.mp (by rw [hpush]; rfl)
      · exact ih hrest pkt hpkt

/-- No entry is in use. -/
def JitterBuffer.Empty (jb : JitterBuffer) : Prop := ∀ i, (jb.buffer i).valid = false

theorem Empty.windowed (h : jb.Empty) (b : UInt32) : jb.Windowed b := by
  intro i hi
  rw [h i] at hi
  cases hi

theorem Empty.held (h : jb.Empty) : jb.held = 0 := by
  rw [Multiset.eq_zero_iff_forall_notMem]
  intro x hx
  obtain ⟨i, hi⟩ := mem_bag.mp hx
  have hslot : jb.slots i = none := slot_of_free (h i)
  rw [hslot] at hi
  cases hi

/-- The packets of an overfull buffer have distinct numbers in one window. -/
structure Arriving (b : UInt32) (pkts : List AudioPacket) : Prop where
  window : ∀ pkt ∈ pkts, InWindow b (AudioPacket.seqNum pkt)
  distinct : (pkts.map AudioPacket.seqNum).Nodup

theorem Arriving.keys {pkts : List AudioPacket} (h : Arriving b pkts) :
    Eviction.Distinct (Packet.place b) (pkts.map AudioPacket.packet) := by
  have hkeys : (pkts.map AudioPacket.packet).map (Packet.place b) =
      (pkts.map AudioPacket.seqNum).map (serial b) := by
    rw [List.map_map, List.map_map]
    rfl
  rw [Eviction.Distinct, hkeys]
  exact h.distinct.map (serial_injective b)

/-- **What an empty buffer holds after pushes.**  Up to its size it holds
everything.  After more it holds the last packet together with the newest of the
others, and so the newest of all exactly when the last one is among them. -/
theorem buffer_keeps_last_and_newest (b : UInt32) (jb : JitterBuffer) (pkts : List AudioPacket)
    (hempty : jb.Empty) (h : Arriving b pkts) :
    ((∃ jb', run jitterBufferPush jb pkts = some jb') ↔
      ∀ pkt ∈ pkts, (AudioPacket.payloadSize pkt).toNat ≤ audioPayloadSize) ∧
    ∀ jb', run jitterBufferPush jb pkts = some jb' →
      (pkts.length ≤ jitterBufferSize → jb'.held = ↑(pkts.map AudioPacket.packet)) ∧
      ∀ init last, pkts = init ++ [last] → jitterBufferSize < pkts.length →
        jb'.held = AudioPacket.packet last ::ₘ
          ↑(Eviction.newest (Packet.place b) (jitterBufferSize - 1) (init.map AudioPacket.packet)) ∧
        (jb'.held = ↑(Eviction.newest (Packet.place b) jitterBufferSize (pkts.map AudioPacket.packet)) ↔
          AudioPacket.packet last ∈
            Eviction.newest (Packet.place b) jitterBufferSize (pkts.map AudioPacket.packet)) := by
  have hsize : 0 < jitterBufferSize := by decide
  constructor
  · constructor
    · intro ⟨jb', hrun⟩
      exact fits_of_pushes hrun
    · intro hfits
      obtain ⟨jb', hrun, _⟩ := pushes_arrive (Empty.windowed hempty b) hfits h.window
      exact ⟨jb', hrun⟩
  · intro jb' hrun
    obtain ⟨jb₁, hrun₁, harrivals⟩ :=
      pushes_arrive (Empty.windowed hempty b) (fits_of_pushes hrun) h.window
    rw [hrun, Option.some.injEq] at hrun₁
    subst hrun₁
    rw [Empty.held hempty] at harrivals
    constructor
    · intro hlen
      have hroom := Eviction.arrivals_room (by simpa using hlen) harrivals
      rw [hroom, Multiset.zero_add]
    · intro init last hsnoc hlen
      subst hsnoc
      have hkeys := h.keys
      rw [List.map_append, List.map_singleton] at hkeys harrivals ⊢
      constructor
      · apply Eviction.arrivals_full hsize hkeys _ harrivals
        simp only [List.length_append, List.length_singleton] at hlen
        rw [List.length_map]
        omega
      · rw [Eviction.keeps_newest_iff hsize hkeys harrivals, or_iff_right]
        simpa using hlen

/-- Twenty packets in order, and then an older one. -/
def lateArrival : List AudioPacket := (List.range 20).map (fun n => numberedPacket (n.toUInt8 + 2)) ++ [numberedPacket 1]

theorem lateArrival_arriving : Arriving 0 lateArrival where
  window := by decide +kernel
  distinct := by decide +kernel

theorem emptyJitter_empty : emptyJitter.Empty := fun _ => rfl

/-- The late packet is held, though it is the oldest. -/
theorem late_packet_is_held :
    (∃ jb', run jitterBufferPush emptyJitter lateArrival = some jb') ∧
    ∀ jb', run jitterBufferPush emptyJitter lateArrival = some jb' →
      AudioPacket.packet (numberedPacket 1) ∈ jb'.held := by
  obtain ⟨hiff, hheld⟩ :=
    buffer_keeps_last_and_newest 0 emptyJitter lateArrival emptyJitter_empty lateArrival_arriving
  refine ⟨hiff.mpr (by decide +kernel), ?_⟩
  intro jb' hrun
  obtain ⟨hlast, _⟩ := (hheld jb' hrun).2 _ (numberedPacket 1) rfl (by decide)
  rw [hlast]
  exact Multiset.mem_cons_self _ _

/-- The oldest packet of all is kept if it comes last. -/
theorem late_packet_evicts_newer :
    ¬ ∀ (b : UInt32) (jb : JitterBuffer) (pkts : List AudioPacket), jb.Empty → Arriving b pkts →
      (∀ pkt ∈ pkts, (AudioPacket.payloadSize pkt).toNat ≤ audioPayloadSize) →
      ∃ jb', run jitterBufferPush jb pkts = some jb' ∧
        jb'.held = ↑(Eviction.newest (Packet.place b) jitterBufferSize (pkts.map AudioPacket.packet)) := by
  intro hall
  have hfits : ∀ pkt ∈ lateArrival, (AudioPacket.payloadSize pkt).toNat ≤ audioPayloadSize := by decide +kernel
  obtain ⟨jb', hrun, hnewest⟩ := hall 0 emptyJitter lateArrival emptyJitter_empty lateArrival_arriving hfits
  obtain ⟨jb₁, hrun₁, harrivals⟩ :=
    pushes_arrive (Empty.windowed emptyJitter_empty 0) hfits lateArrival_arriving.window
  rw [hrun, Option.some.injEq] at hrun₁
  subst hrun₁
  rw [Empty.held emptyJitter_empty, lateArrival, List.map_append] at harrivals
  have hkeys := lateArrival_arriving.keys
  rw [lateArrival, List.map_append] at hkeys
  have hlast := Eviction.arrivals_full (by decide) hkeys (by simp [jitterBufferSize]) harrivals
  have hmem : AudioPacket.packet (numberedPacket 1) ∈ jb'.held := by
    rw [hlast]
    exact Multiset.mem_cons_self _ _
  rw [hnewest, Multiset.mem_coe] at hmem
  exact absurd hmem (by decide +kernel)

end EchoLink
