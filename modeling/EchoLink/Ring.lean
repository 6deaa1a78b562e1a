import EchoLink.Protocol
import EchoLink.BoundedQueue

/-!
# The audio ring

`ipc_manager.c`: a circular array of packets in shared memory with three
32-bit counters, two semaphores and a mutex.  A call of `ring_buffer_push` or
`ring_buffer_pop` is three steps: `sem_trywait`, the section under the mutex,
and `sem_post`.  Any thread may run between them.

`Represents` relates the ring to the bounded queue of the library: its queue
is what the array holds from `head` on.  Every step of the ring is a step of
the queue (`Represents.step`), so the ring is a bounded first-in first-out
queue whatever the threads do (`ring_fifo`).
-/

namespace EchoLink

open BoundedQueue

variable {ι α : Type}

/-- `ring_buffer`. -/
structure RingBuffer (α : Type) where
  packets : Nat → α
  head : UInt32
  tail : UInt32
  count : UInt32

/-- `(i + 1) % RING_BUFFER_CAPACITY`. -/
def nextIndex (i : UInt32) : UInt32 := (i + 1) % UInt32.ofNat ringBufferCapacity

/-- What `ring_buffer_push` does under the mutex. -/
def RingBuffer.put (ring : RingBuffer α) (pkt : α) : RingBuffer α :=
  { packets := Function.update ring.packets ring.tail.toNat pkt
    head := ring.head
    tail := nextIndex ring.tail
    count := ring.count + 1 }

/-- What `ring_buffer_pop` does under the mutex, with the packet it copies. -/
def RingBuffer.take (ring : RingBuffer α) : α × RingBuffer α :=
  (ring.packets ring.head.toNat,
    { ring with head := nextIndex ring.head, count := ring.count - 1 })

/-- The ring with its semaphores and the calls in progress, and the packets
written and returned so far in the order of the critical sections. -/
structure Ring (ι α : Type) where
  shm : RingBuffer α
  ringEmpty : Nat
  ringFull : Nat
  call : ι → Phase α
  written : List α
  returned : List α

/-- The ring after `ipc_manager_init`. -/
def Ring.start (ι : Type) (zero : α) : Ring ι α where
  shm := { packets := fun _ => zero, head := 0, tail := 0, count := 0 }
  ringEmpty := ringBufferCapacity
  ringFull := 0
  call := fun _ => .idle
  written := []
  returned := []

variable [DecidableEq ι]

/-- The next step of thread `t`; an idle thread starts the call `a`. -/
def Ring.step (s : Ring ι α) (t : ι) (a : Act α) : Ring ι α :=
  match s.call t with
  | .idle =>
      match a with
      | .push pkt =>
          -- `sem_trywait(&ring_empty)`: a full ring drops the packet
          if s.ringEmpty = 0 then s
          else
            { s with
              ringEmpty := s.ringEmpty - 1
              call := Function.update s.call t (.reserved pkt) }
      | .pop =>
          -- `sem_trywait(&ring_full)`
          if s.ringFull = 0 then s
          else { s with ringFull := s.ringFull - 1, call := Function.update s.call t .claimed }
  | .reserved pkt =>
      { s with
        shm := s.shm.put pkt
        written := s.written ++ [pkt]
        call := Function.update s.call t .written }
  | .written => { s with ringFull := s.ringFull + 1, call := Function.update s.call t .idle }
  | .claimed =>
      { s with
        shm := s.shm.take.2
        returned := s.returned ++ [s.shm.take.1]
        call := Function.update s.call t (.taken s.shm.take.1) }
  | .taken _ => { s with ringEmpty := s.ringEmpty + 1, call := Function.update s.call t .idle }

def Ring.run (s : Ring ι α) (acts : List (ι × Act α)) : Ring ι α :=
  acts.foldl (fun s p => s.step p.1 p.2) s

/-- The packets stored from `head` on. -/
def RingBuffer.contents (ring : RingBuffer α) : List α :=
  window ringBufferCapacity ring.packets ring.head.toNat ring.count.toNat

/-! ### The counters -/

theorem nextIndex_toNat {i : UInt32} (h : i.toNat < ringBufferCapacity) :
    (nextIndex i).toNat = (i.toNat + 1) % ringBufferCapacity := by
  have hadd : (i + 1).toNat = i.toNat + 1 := by
    rw [UInt32.toNat_add, UInt32.toNat_one, Nat.mod_eq_of_lt (by simp only [ringBufferCapacity] at h; omega)]
  rw [nextIndex, UInt32.toNat_mod, hadd]
  rfl

theorem count_succ_toNat {n : UInt32} (h : n.toNat < ringBufferCapacity) :
    (n + 1).toNat = n.toNat + 1 := by
  rw [UInt32.toNat_add, UInt32.toNat_one, Nat.mod_eq_of_lt (by simp only [ringBufferCapacity] at h; omega)]

theorem count_pred_toNat {n : UInt32} (h : 0 < n.toNat) : (n - 1).toNat = n.toNat - 1 := by
  rw [UInt32.toNat_sub_of_le _ _ (by rw [UInt32.le_iff_toNat_le, UInt32.toNat_one]; exact h),
    UInt32.toNat_one]

/-! ### The ring is the queue -/

/-- The ring holds the queue of `q`, and everything else is the same. -/
structure Represents (s : Ring ι α) (q : State ι α) : Prop where
  queue : q.queue = s.shm.contents
  empty : q.empty = s.ringEmpty
  full : q.full = s.ringFull
  phase : q.phase = s.call
  pushed : q.pushed = s.written
  popped : q.popped = s.returned
  head : s.shm.head.toNat < ringBufferCapacity
  tail : s.shm.tail.toNat = (s.shm.head.toNat + s.shm.count.toNat) % ringBufferCapacity

omit [DecidableEq ι] in
theorem Represents.start (zero : α) :
    Represents (Ring.start ι zero) (BoundedQueue.start ι α ringBufferCapacity) where
  queue := rfl
  empty := rfl
  full := rfl
  phase := rfl
  pushed := rfl
  popped := rfl
  head := by simp [Ring.start, ringBufferCapacity]
  tail := rfl

variable {s : Ring ι α} {q : State ι α}

omit [DecidableEq ι] in
theorem Represents.length (h : Represents s q) : q.queue.length = s.shm.count.toNat := by
  rw [h.queue, RingBuffer.contents, window_length]

omit [DecidableEq ι] in
theorem Represents.tail_lt (h : Represents s q) : s.shm.tail.toNat < ringBufferCapacity := by
  rw [h.tail]
  exact Nat.mod_lt _ (by decide)

/-- The section of a push stores at the end of the queue. -/
theorem put_contents {ring : RingBuffer α} (pkt : α)
    (htail : ring.tail.toNat = (ring.head.toNat + ring.count.toNat) % ringBufferCapacity)
    (hroom : ring.count.toNat < ringBufferCapacity) :
    (ring.put pkt).contents = ring.contents ++ [pkt] := by
  simp only [RingBuffer.contents, RingBuffer.put]
  rw [count_succ_toNat hroom, htail]
  exact window_push _ _ _ hroom

/-- The section of a pop takes the first packet of the queue. -/
theorem take_contents {ring : RingBuffer α} (hhead : ring.head.toNat < ringBufferCapacity)
    (hpos : 0 < ring.count.toNat) : ring.contents = ring.take.1 :: ring.take.2.contents := by
  obtain ⟨n, hn⟩ : ∃ n, ring.count.toNat = n + 1 := ⟨ring.count.toNat - 1, by omega⟩
  simp only [RingBuffer.contents, RingBuffer.take]
  rw [count_pred_toNat hpos, nextIndex_toNat hhead, hn]
  exact window_pop _ hhead n

theorem Represents.put (h : Represents s q) {t : ι} {pkt : α} (ht : s.call t = .reserved pkt)
    (hroom : s.shm.count.toNat < ringBufferCapacity) (a : Act α) :
    Represents (s.step t a) (BoundedQueue.step q t a) := by
  have hq : q.phase t = .reserved pkt := by rw [h.phase, ht]
  simp only [Ring.step, ht, BoundedQueue.step, hq]
  refine ⟨?_, h.empty, h.full, ?_, ?_, h.popped, h.head, ?_⟩
  · rw [put_contents pkt h.tail hroom, h.queue]
  · rw [h.phase]
  · rw [h.pushed]
  · simp only [RingBuffer.put]
    rw [nextIndex_toNat h.tail_lt, count_succ_toNat hroom, h.tail, Nat.mod_add_mod, Nat.add_assoc]

theorem Represents.take (h : Represents s q) {t : ι} (ht : s.call t = .claimed)
    (hpos : 0 < s.shm.count.toNat) (a : Act α) :
    Represents (s.step t a) (BoundedQueue.step q t a) := by
  have hphase : q.phase t = .claimed := by rw [h.phase, ht]
  have hqueue : q.queue = s.shm.take.1 :: s.shm.take.2.contents := by
    rw [h.queue]
    exact take_contents h.head hpos
  simp only [Ring.step, ht, BoundedQueue.step, hphase, hqueue]
  refine ⟨rfl, h.empty, h.full, ?_, h.pushed, ?_, ?_, ?_⟩
  · rw [h.phase]
  · rw [h.popped]
  · simp only [RingBuffer.take]
    rw [nextIndex_toNat h.head]
    exact Nat.mod_lt _ (by decide)
  · have harith : s.shm.head.toNat + 1 + (s.shm.count.toNat - 1) =
        s.shm.head.toNat + s.shm.count.toNat := by omega
    simp only [RingBuffer.take]
    rw [nextIndex_toNat h.head, count_pred_toNat hpos, Nat.mod_add_mod, harith, h.tail]

/-- **One step of the ring is one step of the queue.** -/
theorem Represents.step [Fintype ι] (h : Represents s q) (hinv : Inv ringBufferCapacity q) (t : ι)
    (a : Act α) : Represents (s.step t a) (BoundedQueue.step q t a) := by
  cases ht : s.call t with
  | idle =>
      have hq : q.phase t = .idle := by rw [h.phase, ht]
      cases a with
      | push pkt =>
          simp only [Ring.step, ht, BoundedQueue.step, hq, h.empty]
          split
          · exact h
          · exact { h with empty := rfl, phase := by rw [h.phase] }
      | pop =>
          simp only [Ring.step, ht, BoundedQueue.step, hq, h.full]
          split
          · exact h
          · exact { h with full := rfl, phase := by rw [h.phase] }
  | reserved pkt =>
      have hroom := hinv.length_lt_of_reserved (t := t) (by rw [h.phase, ht])
      rw [h.length] at hroom
      exact h.put ht hroom a
  | written =>
      have hq : q.phase t = .written := by rw [h.phase, ht]
      simp only [Ring.step, ht, BoundedQueue.step, hq]
      exact { h with full := by rw [h.full], phase := by rw [h.phase] }
  | claimed =>
      have hpos := hinv.length_pos_of_claimed (t := t) (by rw [h.phase, ht])
      rw [h.length] at hpos
      exact h.take ht hpos a
  | taken pkt =>
      have hq : q.phase t = .taken pkt := by rw [h.phase, ht]
      simp only [Ring.step, ht, BoundedQueue.step, hq]
      exact { h with empty := by rw [h.empty], phase := by rw [h.phase] }

theorem Represents.run [Fintype ι] (h : Represents s q) (hinv : Inv ringBufferCapacity q)
    (acts : List (ι × Act α)) : Represents (s.run acts) (BoundedQueue.run q acts) := by
  induction acts generalizing s q with
  | nil => exact h
  | cons p acts ih => exact ih (h.step hinv p.1 p.2) (hinv.step p.1 p.2)

/-! ### What the ring promises -/

/-- The promises of the ring in one state. -/
structure RingFifo (s : Ring ι α) : Prop where
  /-- nothing is lost, duplicated, reordered or overwritten -/
  fifo : s.returned ++ s.shm.contents = s.written
  count_le : s.shm.count.toNat ≤ ringBufferCapacity
  /-- a pop under the mutex finds a packet, so `count` does not wrap -/
  count_pos : ∀ t, s.call t = .claimed → 0 < s.shm.count.toNat
  /-- a push under the mutex finds a free place -/
  count_lt : ∀ t pkt, s.call t = .reserved pkt → s.shm.count.toNat < ringBufferCapacity
  head_lt : s.shm.head.toNat < ringBufferCapacity
  tail_eq : s.shm.tail.toNat = (s.shm.head.toNat + s.shm.count.toNat) % ringBufferCapacity
  quiescent : (∀ t, s.call t = .idle) →
    s.ringEmpty = ringBufferCapacity - s.shm.count.toNat ∧ s.ringFull = s.shm.count.toNat

omit [DecidableEq ι] in
theorem Represents.fifo [Fintype ι] (h : Represents s q) (hinv : Inv ringBufferCapacity q) :
    RingFifo s where
  fifo := by rw [← h.popped, ← h.queue, hinv.fifo, h.pushed]
  count_le := h.length ▸ hinv.length_le
  count_pos := by
    intro t ht
    have hpos := hinv.length_pos_of_claimed (t := t) (by rw [h.phase, ht])
    rwa [h.length] at hpos
  count_lt := by
    intro t pkt ht
    have hroom := hinv.length_lt_of_reserved (t := t) (by rw [h.phase, ht])
    rwa [h.length] at hroom
  head_lt := h.head
  tail_eq := h.tail
  quiescent := by
    intro hidle
    have hq := hinv.quiescent (by rw [h.phase]; exact hidle)
    rwa [h.empty, h.full, h.length] at hq

/-! ### What the ring carries -/

/-- Every packet in the ring, in a push, or in a pop has the property `P`. -/
structure Carries (P : α → Prop) (s : Ring ι α) : Prop where
  written : ∀ pkt ∈ s.written, P pkt
  reserved : ∀ t pkt, s.call t = .reserved pkt → P pkt
  taken : ∀ t pkt, s.call t = .taken pkt → P pkt

omit [DecidableEq ι] in
theorem Carries.start (P : α → Prop) (zero : α) : Carries P (Ring.start ι zero) where
  written := by simp [Ring.start]
  reserved := by simp [Ring.start]
  taken := by simp [Ring.start]

/-- A thread that moves to a phase without a packet of its own. -/
theorem Carries.move {P : α → Prop} {s' : Ring ι α} {t : ι} {p : Phase α} (h : Carries P s)
    (hcall : s'.call = Function.update s.call t p) (hwritten : ∀ pkt ∈ s'.written, P pkt)
    (hres : ∀ pkt, p = .reserved pkt → P pkt) (htaken : ∀ pkt, p = .taken pkt → P pkt) :
    Carries P s' := by
  refine ⟨hwritten, ?_, ?_⟩
  · intro u pkt hu
    rw [hcall] at hu
    by_cases hut : u = t
    · subst hut
      rw [Function.update_self] at hu
      exact hres pkt hu
    · rw [Function.update_of_ne hut] at hu
      exact h.reserved u pkt hu
  · intro u pkt hu
    rw [hcall] at hu
    by_cases hut : u = t
    · subst hut
      rw [Function.update_self] at hu
      exact htaken pkt hu
    · rw [Function.update_of_ne hut] at hu
      exact h.taken u pkt hu

/-- A packet that a pop copies was pushed before. -/
theorem Carries.step [Fintype ι] {P : α → Prop} (h : Carries P s) (hr : Represents s q)
    (hinv : Inv ringBufferCapacity q) (t : ι) (a : Act α)
    (ha : ∀ pkt, a = .push pkt → s.call t = .idle → s.ringEmpty ≠ 0 → P pkt) :
    Carries P (s.step t a) := by
  cases ht : s.call t with
  | idle =>
      cases a with
      | push pkt =>
          simp only [Ring.step, ht]
          split
          · exact h
          · rename_i hroom
            exact h.move rfl h.written (by simpa using ha pkt rfl ht hroom) (by simp)
      | pop =>
          simp only [Ring.step, ht]
          split
          · exact h
          · exact h.move rfl h.written (by simp) (by simp)
  | reserved pkt =>
      simp only [Ring.step, ht]
      refine h.move rfl ?_ (by simp) (by simp)
      intro pkt' hpkt'
      rcases List.mem_append.mp hpkt' with hpkt' | hpkt'
      · exact h.written pkt' hpkt'
      · rw [List.mem_singleton.mp hpkt']
        exact h.reserved t pkt ht
  | written =>
      simp only [Ring.step, ht]
      exact h.move rfl h.written (by simp) (by simp)
  | claimed =>
      simp only [Ring.step, ht]
      refine h.move rfl h.written (by simp) ?_
      intro pkt hpkt
      have hfifo := hr.fifo hinv
      have hmem : pkt ∈ s.written := by
        rw [← hfifo.fifo, take_contents hr.head (hfifo.count_pos t ht)]
        simp [Phase.taken.inj hpkt]
      exact h.written pkt hmem
  | taken pkt =>
      simp only [Ring.step, ht]
      exact h.move rfl h.written (by simp) (by simp)

/-- **The ring is a bounded queue.**  Whatever calls any number of threads make
and however their steps interleave, every state reached keeps the promises. -/
theorem ring_fifo [Fintype ι] (zero : α) (acts : List (ι × Act α)) :
    RingFifo ((Ring.start ι zero).run acts) :=
  ((Represents.start zero).run (Inv.start _) acts).fifo ((Inv.start _).run acts)

end EchoLink
