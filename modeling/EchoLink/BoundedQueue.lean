import Mathlib.Algebra.BigOperators.Group.Finset.Basic
import Mathlib.Algebra.Order.BigOperators.Group.Finset
import Mathlib.Data.Fintype.Basic
import Mathlib.Data.Int.ModEq

/-!
# A bounded queue guarded by two semaphores

The classical arrangement: `empty` counts free places and `full` counts
stored items.  A push takes from `empty`, appends in a critical section, and
posts `full`; a pop takes from `full`, removes in a critical section, and
posts `empty`.  Any number of threads take these steps in any order, and both
operations give up when their semaphore is 0.

`Inv` accounts for the permits that are held by calls in progress, and
`Inv.run` carries it along every run.  From it follow the bound, that no pop
finds the queue empty, and the values of the semaphores when no call is in
progress.

`window` is the contents of a circular array; `window_push` and `window_pop`
say that writing at the tail and reading at the head are the two queue
operations, across the wrap-around.
-/

namespace BoundedQueue

variable {ι α : Type*}

/-! ### The protocol -/

/-- Where the call of a thread stands. -/
inductive Phase (α : Type*) where
  | idle
  /-- a push that has taken a permit of `empty` -/
  | reserved (x : α)
  /-- a push that has stored its item -/
  | written
  /-- a pop that has taken a permit of `full` -/
  | claimed
  /-- a pop that has removed an item -/
  | taken (x : α)

/-- The call an idle thread makes next. -/
inductive Act (α : Type*) where
  | push (x : α)
  | pop

/-- The queue, the semaphores, the calls in progress, and all that was pushed
and popped so far. -/
structure State (ι α : Type*) where
  queue : List α
  empty : Nat
  full : Nat
  phase : ι → Phase α
  pushed : List α
  popped : List α

def start (ι α : Type*) (cap : Nat) : State ι α :=
  { queue := [], empty := cap, full := 0, phase := fun _ => .idle, pushed := [], popped := [] }

variable [DecidableEq ι]

/-- The next step of thread `t`, which starts the call `a` if it is idle. -/
def step (s : State ι α) (t : ι) (a : Act α) : State ι α :=
  match s.phase t with
  | .idle =>
      match a with
      | .push x =>
          if s.empty = 0 then s
          else { s with empty := s.empty - 1, phase := Function.update s.phase t (.reserved x) }
      | .pop =>
          if s.full = 0 then s
          else { s with full := s.full - 1, phase := Function.update s.phase t .claimed }
  | .reserved x =>
      { s with
        queue := s.queue ++ [x]
        pushed := s.pushed ++ [x]
        phase := Function.update s.phase t .written }
  | .written => { s with full := s.full + 1, phase := Function.update s.phase t .idle }
  | .claimed =>
      match s.queue with
      | [] => s
      | x :: rest =>
          { s with
            queue := rest
            popped := s.popped ++ [x]
            phase := Function.update s.phase t (.taken x) }
  | .taken _ => { s with empty := s.empty + 1, phase := Function.update s.phase t .idle }

def run (s : State ι α) (acts : List (ι × Act α)) : State ι α :=
  acts.foldl (fun s p => step s p.1 p.2) s

/-! ### Permits held by calls in progress -/

/-- The permits of `empty` a call holds. -/
def Phase.emptyHeld : Phase α → Nat
  | .reserved _ => 1
  | .taken _ => 1
  | _ => 0

/-- The permits of `full` a call holds. -/
def Phase.fullHeld : Phase α → Nat
  | .written => 1
  | .claimed => 1
  | _ => 0

variable [Fintype ι]

/-- Replacing one value of a function changes a total by that value's part. -/
theorem sum_update {β : Type*} (w : β → Nat) (f : ι → β) (t : ι) (p : β) :
    (∑ u, w (Function.update f t p u)) + w (f t) = (∑ u, w (f u)) + w p := by
  have hother : ∀ u ∈ Finset.univ.erase t, w (Function.update f t p u) = w (f u) := by
    intro u hu
    rw [Function.update_of_ne (Finset.ne_of_mem_erase hu)]
  rw [← Finset.add_sum_erase Finset.univ (fun u => w (Function.update f t p u)) (Finset.mem_univ t),
    ← Finset.add_sum_erase Finset.univ (fun u => w (f u)) (Finset.mem_univ t),
    Finset.sum_congr rfl hother, Function.update_self]
  omega

omit [DecidableEq ι] in
theorem le_sum {β : Type*} (w : β → Nat) (f : ι → β) (t : ι) : w (f t) ≤ ∑ u, w (f u) :=
  Finset.single_le_sum (f := fun u => w (f u)) (fun _ _ => Nat.zero_le _) (Finset.mem_univ t)

/-- **The invariant.**  Nothing is lost or reordered, and every permit is in a
semaphore, in the queue, or held by a call. -/
structure Inv (cap : Nat) (s : State ι α) : Prop where
  fifo : s.popped ++ s.queue = s.pushed
  places : s.empty + (∑ t, (s.phase t).emptyHeld) + s.queue.length = cap
  items : s.full + (∑ t, (s.phase t).fullHeld) = s.queue.length

variable {cap : Nat} {s : State ι α}

omit [DecidableEq ι] in
theorem Inv.start (cap : Nat) : Inv cap (start ι α cap) where
  fifo := rfl
  places := by simp [BoundedQueue.start, Phase.emptyHeld]
  items := by simp [BoundedQueue.start, Phase.fullHeld]

omit [DecidableEq ι] in
theorem Inv.length_le (h : Inv cap s) : s.queue.length ≤ cap := by
  have := h.places
  omega

omit [DecidableEq ι] in
/-- A push that holds its permit finds room. -/
theorem Inv.length_lt_of_reserved (h : Inv cap s) {t : ι} {x : α} (ht : s.phase t = .reserved x) :
    s.queue.length < cap := by
  have hheld := le_sum Phase.emptyHeld s.phase t
  have hplaces := h.places
  rw [ht] at hheld
  simp only [Phase.emptyHeld] at hheld hplaces
  omega

omit [DecidableEq ι] in
/-- A pop that holds its permit finds an item. -/
theorem Inv.length_pos_of_claimed (h : Inv cap s) {t : ι} (ht : s.phase t = .claimed) :
    0 < s.queue.length := by
  have hheld := le_sum Phase.fullHeld s.phase t
  have hitems := h.items
  rw [ht] at hheld
  simp only [Phase.fullHeld] at hheld hitems
  omega

/-- One thread moves to phase `p`, and the permits it held and those it holds
now account for the change of the semaphores and of the queue. -/
theorem Inv.move (h : Inv cap s) {s' : State ι α} {t : ι} {p : Phase α}
    (hphase : s'.phase = Function.update s.phase t p) (hfifo : s'.popped ++ s'.queue = s'.pushed)
    (hplaces : s'.empty + p.emptyHeld + s'.queue.length =
      s.empty + (s.phase t).emptyHeld + s.queue.length)
    (hitems : s'.full + p.fullHeld + s.queue.length =
      s.full + (s.phase t).fullHeld + s'.queue.length) : Inv cap s' := by
  have hempty := sum_update Phase.emptyHeld s.phase t p
  have hfull := sum_update Phase.fullHeld s.phase t p
  have hp := h.places
  have hi := h.items
  refine ⟨hfifo, ?_, ?_⟩
  · rw [hphase]
    omega
  · rw [hphase]
    omega

theorem Inv.step (h : Inv cap s) (t : ι) (a : Act α) : Inv cap (step s t a) := by
  cases hp : s.phase t with
  | idle =>
      cases a with
      | push x =>
          simp only [BoundedQueue.step, hp]
          split
          · exact h
          · refine h.move rfl h.fifo ?_ ?_
            · simp only [hp, Phase.emptyHeld]
              omega
            · simp only [hp, Phase.fullHeld]
      | pop =>
          simp only [BoundedQueue.step, hp]
          split
          · exact h
          · refine h.move rfl h.fifo ?_ ?_
            · simp only [hp, Phase.emptyHeld]
            · simp only [hp, Phase.fullHeld]
              omega
  | reserved x =>
      simp only [BoundedQueue.step, hp]
      refine h.move rfl ?_ ?_ ?_
      · rw [← h.fifo, List.append_assoc]
      · simp only [hp, Phase.emptyHeld, List.length_append, List.length_singleton]
        omega
      · simp only [hp, Phase.fullHeld, List.length_append, List.length_singleton]
        omega
  | written =>
      simp only [BoundedQueue.step, hp]
      refine h.move rfl h.fifo ?_ ?_
      · simp only [hp, Phase.emptyHeld]
      · simp only [hp, Phase.fullHeld]
  | claimed =>
      obtain ⟨x, rest, hq⟩ := List.exists_cons_of_length_pos (h.length_pos_of_claimed hp)
      simp only [BoundedQueue.step, hp, hq]
      refine h.move rfl ?_ ?_ ?_
      · rw [← h.fifo, hq, List.append_assoc]
        rfl
      · simp only [hp, hq, Phase.emptyHeld, List.length_cons]
        omega
      · simp only [hp, hq, Phase.fullHeld, List.length_cons]
        omega
  | taken x =>
      simp only [BoundedQueue.step, hp]
      refine h.move rfl h.fifo ?_ ?_
      · simp only [hp, Phase.emptyHeld]
      · simp only [hp, Phase.fullHeld]

theorem Inv.run (h : Inv cap s) (acts : List (ι × Act α)) : Inv cap (run s acts) := by
  induction acts generalizing s with
  | nil => exact h
  | cons p acts ih => exact ih (h.step p.1 p.2)

omit [DecidableEq ι] in
/-- With no call in progress the semaphores are the free places and the items. -/
theorem Inv.quiescent (h : Inv cap s) (hidle : ∀ t, s.phase t = .idle) :
    s.empty = cap - s.queue.length ∧ s.full = s.queue.length := by
  have hplaces := h.places
  have hitems := h.items
  simp only [hidle, Phase.emptyHeld, Phase.fullHeld, Finset.sum_const_zero] at hplaces hitems
  omega

/-! ### Circular arrays -/

/-- The `count` items from `head` on. -/
def window (cap : Nat) (buf : Nat → α) (head count : Nat) : List α :=
  (List.range count).map fun i => buf ((head + i) % cap)

@[simp] theorem window_length (cap : Nat) (buf : Nat → α) (head count : Nat) :
    (window cap buf head count).length = count := by simp [window]

/-- Places less than a full turn apart are different places. -/
theorem add_mod_ne {cap head i n : Nat} (hi : i < n) (hn : n < cap) :
    (head + i) % cap ≠ (head + n) % cap := by
  intro h
  have hmod : i ≡ n [MOD cap] := Nat.ModEq.add_left_cancel' head h
  rw [Nat.ModEq] at hmod
  rw [Nat.mod_eq_of_lt (by omega), Nat.mod_eq_of_lt hn] at hmod
  omega

/-- Writing behind the last item appends it. -/
theorem window_push {cap : Nat} (buf : Nat → α) (head : Nat) {count : Nat} (x : α)
    (h : count < cap) :
    window cap (Function.update buf ((head + count) % cap) x) head (count + 1) =
      window cap buf head count ++ [x] := by
  rw [window, List.range_succ, List.map_append, window]
  congr 1
  · apply List.map_congr_left
    intro i hi
    rw [Function.update_of_ne (add_mod_ne (List.mem_range.mp hi) h)]
  · simp

/-- Reading at the head and moving it on removes the first item. -/
theorem window_pop {cap : Nat} (buf : Nat → α) {head : Nat} (hhead : head < cap) (count : Nat) :
    window cap buf head (count + 1) = buf head :: window cap buf ((head + 1) % cap) count := by
  rw [window, List.range_succ_eq_map, List.map_cons, List.map_map, window]
  congr 1
  · simp [Nat.mod_eq_of_lt hhead]
  · apply List.map_congr_left
    intro i _
    have harith : head + (i + 1) = head + 1 + i := by omega
    rw [Function.comp_apply, Nat.succ_eq_add_one, harith, Nat.mod_add_mod]

end BoundedQueue
