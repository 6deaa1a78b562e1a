import EchoLink.Runs
import Mathlib.Logic.Relation
import Mathlib.Data.List.Nodup
import Mathlib.Logic.Function.Basic

/-!
# Mutexes taken in order

Threads run operations, and an operation is the list of the mutexes it locks
and unlocks.  A thread at a mutex that another one holds waits.  A thread
starts a new operation when it is done with the last one.

`Ordered` says of the events of an operation that every mutex is locked above
those that are held, in a given ranking, that only held mutexes are unlocked,
and that none is left at the end.  `Passes` is the same for a part of an
operation: what is ordered stays so with the part in front of it.

When all operations are ordered, no thread locks a mutex it holds, a thread
between two operations holds none, and the threads never wait for each other
in a cycle (`Inv.no_relock`, `Inv.released`, `Inv.no_cycle`).
-/

namespace LockOrder

open Relation Runs

variable {ι μ : Type*}

/-- What an operation does to the mutexes. -/
inductive Event (μ : Type*) where
  | lock (m : μ)
  | unlock (m : μ)
  deriving DecidableEq

/-- The mutex is held while the events happen. -/
def around (m : μ) (events : List (Event μ)) : List (Event μ) := .lock m :: (events ++ [.unlock m])

/-- What each thread has still to do, and who holds each mutex. -/
structure State (ι μ : Type*) where
  rest : ι → List (Event μ)
  holder : μ → Option ι

def State.start : State ι μ := { rest := fun _ => [], holder := fun _ => none }

/-- A thread starts an operation, or goes on with the one it runs. -/
inductive Move (ι μ : Type*) where
  | start (i : ι) (events : List (Event μ))
  | next (i : ι)

/-- The thread at a mutex that is held stays where it is. -/
def State.step [DecidableEq ι] [DecidableEq μ] (s : State ι μ) : Move ι μ → Option (State ι μ)
  | .start i events =>
      match s.rest i with
      | [] => some { s with rest := Function.update s.rest i events }
      | _ => some s
  | .next i =>
      match s.rest i with
      | [] => some s
      | .lock m :: rest =>
          match s.holder m with
          | none =>
              some { rest := Function.update s.rest i rest
                     holder := Function.update s.holder m (some i) }
          | some _ => some s
      | .unlock m :: rest =>
          some { rest := Function.update s.rest i rest
                 holder := Function.update s.holder m none }

/-- The thread `i` waits for a mutex that `j` holds. -/
def WaitsFor (s : State ι μ) (i j : ι) : Prop :=
  ∃ m rest, s.rest i = .lock m :: rest ∧ s.holder m = some j

/-! ### Ordered operations -/

section Ordered

variable [DecidableEq μ] (rank : μ → Nat)

/-- The events are in order for a thread that holds `held`. -/
def Ordered : List μ → List (Event μ) → Prop
  | held, [] => held = []
  | held, .lock m :: rest => (∀ h ∈ held, rank h < rank m) ∧ Ordered (m :: held) rest
  | held, .unlock m :: rest => m ∈ held ∧ Ordered (held.erase m) rest

/-- The events keep what comes after them in order. -/
def Passes (held : List μ) (events : List (Event μ)) : Prop :=
  ∀ rest, Ordered rank held rest → Ordered rank held (events ++ rest)

variable {rank} {held : List μ} {events events' : List (Event μ)}

theorem Passes.nil : Passes rank held [] := fun _ h => h

theorem Passes.append (h : Passes rank held events) (h' : Passes rank held events') :
    Passes rank held (events ++ events') := by
  intro rest hrest
  rw [List.append_assoc]
  exact h _ (h' rest hrest)

/-- A mutex is held around a part of the operation. -/
theorem Passes.guarded {m : μ} (hm : ∀ h ∈ held, rank h < rank m)
    (h : Passes rank (m :: held) events) : Passes rank held (around m events) := by
  intro rest hrest
  have hsplit : around m events ++ rest = .lock m :: (events ++ (.unlock m :: rest)) := by
    simp only [around, List.cons_append, List.append_assoc, List.nil_append]
  rw [hsplit]
  refine ⟨hm, ?_⟩
  refine h _ ⟨List.mem_cons_self, ?_⟩
  rw [List.erase_cons_head]
  exact hrest

/-- Whole operations begin and end with no mutex held. -/
theorem Passes.ordered (h : Passes rank [] events) : Ordered rank [] events := by
  have hevents := h [] rfl
  rw [List.append_nil] at hevents
  exact hevents

end Ordered

/-! ### Every run -/

variable [DecidableEq μ] {rank : μ → Nat} {s : State ι μ} {held : ι → List μ}

/-- **The invariant.**  `held` lists what each thread holds. -/
structure Inv (rank : μ → Nat) (s : State ι μ) (held : ι → List μ) : Prop where
  ordered : ∀ i, Ordered rank (held i) (s.rest i)
  nodup : ∀ i, (held i).Nodup
  holds : ∀ i m, s.holder m = some i ↔ m ∈ held i

theorem Inv.start : Inv rank (State.start : State ι μ) fun _ => [] where
  ordered := fun _ => rfl
  nodup := fun _ => List.nodup_nil
  holds := by
    intro i m
    constructor
    · rintro ⟨⟩
    · rintro ⟨⟩

/-! ### What the invariant gives -/

/-- A thread only locks mutexes above those it holds. -/
theorem Inv.rank_lt_of_holder (h : Inv rank s held) {i : ι} {m n : μ} {rest : List (Event μ)}
    (hholder : s.holder m = some i) (hrest : s.rest i = .lock n :: rest) : rank m < rank n := by
  have hnext := h.ordered i
  rw [hrest] at hnext
  exact hnext.1 m ((h.holds i m).mp hholder)

/-- No thread is about to lock a mutex it holds. -/
theorem Inv.no_relock (h : Inv rank s held) {i : ι} {m : μ} {rest : List (Event μ)}
    (hrest : s.rest i = .lock m :: rest) : s.holder m ≠ some i := by
  intro hholder
  exact Nat.lt_irrefl _ (h.rank_lt_of_holder hholder hrest)

/-- A thread that is done with its operation holds no mutex. -/
theorem Inv.released (h : Inv rank s held) {i : ι} (hrest : s.rest i = []) (m : μ) :
    s.holder m ≠ some i := by
  intro hholder
  have hmem := (h.holds i m).mp hholder
  have hnone := h.ordered i
  rw [hrest] at hnone
  have hnil : held i = [] := hnone
  rw [hnil] at hmem
  cases hmem

/-- Along a chain of waiting threads the mutexes they wait for rise. -/
theorem Inv.rank_lt (h : Inv rank s held) {i j : ι} (hchain : TransGen (WaitsFor s) i j)
    {m n : μ} {rest rest' : List (Event μ)} (hi : s.rest i = .lock m :: rest)
    (hj : s.rest j = .lock n :: rest') : rank m < rank n := by
  induction hchain generalizing n rest' with
  | single hwait =>
      obtain ⟨k, more, hk, hholder⟩ := hwait
      rw [hi, List.cons.injEq, Event.lock.injEq] at hk
      obtain ⟨rfl, _⟩ := hk
      exact h.rank_lt_of_holder hholder hj
  | tail _ hwait ih =>
      obtain ⟨k, more, hk, hholder⟩ := hwait
      exact Nat.lt_trans (ih hk) (h.rank_lt_of_holder hholder hj)

/-- **No deadlock**: the threads do not wait for each other in a cycle. -/
theorem Inv.no_cycle (h : Inv rank s held) (i : ι) : ¬ TransGen (WaitsFor s) i i := by
  intro hcycle
  obtain ⟨j, ⟨m, rest, hi, _⟩, _⟩ := TransGen.head'_iff.mp hcycle
  exact Nat.lt_irrefl _ (h.rank_lt hcycle hi hi)

/-! ### The steps -/

variable [DecidableEq ι]

/-- A thread takes a mutex that is free. -/
theorem Inv.lock (h : Inv rank s held) {i : ι} {m : μ} {rest : List (Event μ)}
    (hrest : s.rest i = .lock m :: rest) (hfree : s.holder m = none) :
    Inv rank { rest := Function.update s.rest i rest, holder := Function.update s.holder m (some i) }
      (Function.update held i (m :: held i)) := by
  have hnext := h.ordered i
  rw [hrest] at hnext
  obtain ⟨hbelow, hafter⟩ := hnext
  have hnot : m ∉ held i := by
    intro hm
    rw [← h.holds, hfree] at hm
    cases hm
  refine ⟨?_, ?_, ?_⟩
  · intro j
    by_cases hj : j = i
    · subst hj
      simp only [Function.update_self]
      exact hafter
    · simp only [Function.update_of_ne hj]
      exact h.ordered j
  · intro j
    by_cases hj : j = i
    · subst hj
      rw [Function.update_self]
      exact List.nodup_cons.mpr ⟨hnot, h.nodup j⟩
    · rw [Function.update_of_ne hj]
      exact h.nodup j
  · intro j k
    dsimp only
    by_cases hk : k = m
    · subst hk
      rw [Function.update_self, Option.some.injEq]
      by_cases hj : j = i
      · subst hj
        rw [Function.update_self]
        exact ⟨fun _ => List.mem_cons_self, fun _ => rfl⟩
      · rw [Function.update_of_ne hj, ← h.holds, hfree]
        exact ⟨fun heq => absurd heq.symm hj, fun heq => by cases heq⟩
    · rw [Function.update_of_ne hk, h.holds]
      by_cases hj : j = i
      · subst hj
        rw [Function.update_self, List.mem_cons]
        exact ⟨Or.inr, fun hor => hor.resolve_left hk⟩
      · rw [Function.update_of_ne hj]

/-- A thread gives a mutex back. -/
theorem Inv.unlock (h : Inv rank s held) {i : ι} {m : μ} {rest : List (Event μ)}
    (hrest : s.rest i = .unlock m :: rest) :
    Inv rank { rest := Function.update s.rest i rest, holder := Function.update s.holder m none }
      (Function.update held i ((held i).erase m)) := by
  have hnext := h.ordered i
  rw [hrest] at hnext
  obtain ⟨hmem, hafter⟩ := hnext
  have hholder := (h.holds i m).mpr hmem
  refine ⟨?_, ?_, ?_⟩
  · intro j
    by_cases hj : j = i
    · subst hj
      simp only [Function.update_self]
      exact hafter
    · simp only [Function.update_of_ne hj]
      exact h.ordered j
  · intro j
    by_cases hj : j = i
    · subst hj
      rw [Function.update_self]
      exact (h.nodup j).erase m
    · rw [Function.update_of_ne hj]
      exact h.nodup j
  · intro j k
    dsimp only
    by_cases hk : k = m
    · subst hk
      rw [Function.update_self]
      constructor
      · rintro ⟨⟩
      intro hmemj
      by_cases hj : j = i
      · subst hj
        rw [Function.update_self] at hmemj
        exact absurd rfl ((h.nodup j).mem_erase_iff.mp hmemj).1
      · -- nobody else held it
        rw [Function.update_of_ne hj, ← h.holds, hholder, Option.some.injEq] at hmemj
        exact absurd hmemj.symm hj
    · rw [Function.update_of_ne hk, h.holds]
      by_cases hj : j = i
      · subst hj
        rw [Function.update_self, (h.nodup j).mem_erase_iff]
        exact ⟨fun hin => ⟨hk, hin⟩, fun hand => hand.2⟩
      · rw [Function.update_of_ne hj]

/-- The operation that a move starts is ordered. -/
def Starts (rank : μ → Nat) (_ : State ι μ) : Move ι μ → Prop
  | .start _ events => Ordered rank [] events
  | .next _ => True

theorem Inv.step (h : Inv rank s held) {move : Move ι μ} (hmove : Starts rank s move) :
    ∃ s' held', s.step move = some s' ∧ Inv rank s' held' := by
  cases move with
  | start i events =>
      cases hrest : s.rest i with
      | cons e rest => exact ⟨s, held, by simp only [State.step, hrest], h⟩
      | nil =>
          have hnone : held i = [] := by
            have hi := h.ordered i
            rw [hrest] at hi
            exact hi
          refine ⟨{ s with rest := Function.update s.rest i events }, held,
            by simp only [State.step, hrest], ?_, h.nodup, h.holds⟩
          intro j
          by_cases hj : j = i
          · subst hj
            rw [hnone]
            simp only [Function.update_self]
            exact hmove
          · simp only [Function.update_of_ne hj]
            exact h.ordered j
  | next i =>
      cases hrest : s.rest i with
      | nil => exact ⟨s, held, by simp only [State.step, hrest], h⟩
      | cons e rest =>
          cases e with
          | lock m =>
              cases hholder : s.holder m with
              | some j => exact ⟨s, held, by simp only [State.step, hrest, hholder], h⟩
              | none =>
                  exact ⟨_, _, by simp only [State.step, hrest, hholder], h.lock hrest hholder⟩
          | unlock m => exact ⟨_, _, by simp only [State.step, hrest], h.unlock hrest⟩

/-- **Every run** of ordered operations. -/
theorem run_inv {moves : List (Move ι μ)}
    (h : Along State.step (Starts rank) (State.start : State ι μ) moves) :
    ∃ s, run State.step (State.start : State ι μ) moves = some s ∧ ∃ held, Inv rank s held := by
  refine run_invariant (I := fun s => ∃ held, Inv rank s held) ?_ ⟨_, Inv.start⟩ h
  rintro s move ⟨held, hs⟩ hmove
  obtain ⟨s', held', hs', hinv⟩ := hs.step hmove
  exact ⟨s', hs', held', hinv⟩

end LockOrder
