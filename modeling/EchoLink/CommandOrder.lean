import EchoLink.Handlers
import EchoLink.TaskPool
import EchoLink.UserTable
import EchoLink.WalCalls
import Mathlib.Data.List.Sort

/-!
# The order of the commands of a client

`process_client_command` appends to a queue, and eight workers take the tasks
from its head.  A task has the number of tasks that were accepted before it.
Taking a task and running its handler are two steps of a worker, so a worker
that took a later task may run it first.

The commands of a client are run in the order in which they were accepted
exactly if no worker runs one while another worker still has an earlier one
(`commands_in_order`).  That is so for a client that waits for a response
before it sends the next command, as the client of this repository does.  The
state at the end is always the one of running the handlers one after another in
the order in which they ran.
-/

namespace EchoLink

open CText BoundedQueue Runs

/-! ### The queue and the workers -/

/-- A handler that has run, with the number of its task. -/
structure Ran where
  number : Nat
  task : Task
  env : Env

/-- The server, the queue and what the workers have taken; `accepted`, `taken`
and `ran` are the tasks accepted, the number of tasks taken and the handlers
that ran so far. -/
structure Dispatch where
  server : Server
  queue : TaskQueue
  worker : Fin workerThreads → Option (Nat × Task)
  accepted : List Task
  taken : Nat
  ran : List Ran

/-- Nothing is queued yet. -/
def Dispatch.start (s : Server) : Dispatch where
  server := s
  queue := { tasks := fun _ => ⟨0, []⟩, head := 0, tail := 0, count := 0 }
  worker := fun _ => none
  accepted := []
  taken := 0
  ran := []

inductive DispatchOp where
  /-- `process_client_command` -/
  | command (c : Ptr) (line : Bytes)
  /-- a worker takes the first task -/
  | take (w : Fin workerThreads)
  /-- a worker runs the handler of its task -/
  | run (w : Fin workerThreads) (env : Env)

/-- A worker runs a task to its end. -/
def runHandler (env : Env) (s : Server) (task : Task) : Option Server :=
  (runTask env { s with wrote := env.wrote } task.c task.command).map Prod.snd

def Dispatch.step (m : Dispatch) : DispatchOp → Option Dispatch
  | .command c line =>
      -- with the queue full the client gets an error
      if m.queue.count = maxQueuedTasks then some m
      else some { m with queue := m.queue.put ⟨c, line⟩, accepted := m.accepted ++ [⟨c, line⟩] }
  | .take w =>
      if m.worker w = none ∧ m.queue.count ≠ 0 then
        some { m with
          queue := m.queue.take.2
          worker := Function.update m.worker w (some (m.taken, m.queue.take.1))
          taken := m.taken + 1 }
      else some m
  | .run w env =>
      match m.worker w with
      | none => some m
      | some (n, task) =>
          (runHandler env m.server task).map fun s =>
            { m with server := s, worker := Function.update m.worker w none, ran := m.ran ++ [⟨n, task, env⟩] }

/-- The handlers of a client that ran, in order. -/
def Dispatch.ranFor (m : Dispatch) (c : Ptr) : List Ran := m.ran.filter fun r => r.task.c = c

/-- The handlers of the client ran in the order in which its commands were
accepted. -/
def Dispatch.InOrder (m : Dispatch) (c : Ptr) : Prop :=
  (m.ranFor c).Pairwise fun r r' => r.number < r'.number

/-- Every command that was accepted has been run. -/
def Dispatch.Done (m : Dispatch) : Prop := m.queue.count = 0 ∧ ∀ w, m.worker w = none

/-- Running the handlers one after another. -/
def oneAfterAnother (s : Server) (rs : List Ran) : Option Server :=
  run (fun s (r : Ran) => runHandler r.env s r.task) s rs

/-- No worker runs a command of the client while another has an earlier one. -/
def NotOvertaking (c : Ptr) (m : Dispatch) : DispatchOp → Prop
  | .run w _ => ∀ n task, m.worker w = some (n, task) → task.c = c →
      ∀ v k task', m.worker v = some (k, task') → task'.c = c → n ≤ k
  | _ => True

/-- The client sends a command when all its earlier ones have been run. -/
def OneAtATime (c : Ptr) (m : Dispatch) : DispatchOp → Prop
  | .command d _ => d = c → (∀ task ∈ m.queue.contents, task.c ≠ c) ∧
      ∀ w n task, m.worker w = some (n, task) → task.c ≠ c
  | _ => True

/-! ### The invariant -/

/-- Every number that was taken is the one of a task that a worker has or that
was run, and not both. -/
structure DispatchOk (s₀ : Server) (m : Dispatch) : Prop where
  queue : QueueOk m.queue
  waiting : m.queue.contents = m.accepted.drop m.taken
  taken_le : m.taken ≤ m.accepted.length
  held : ∀ w n task, m.worker w = some (n, task) → n < m.taken ∧ m.accepted[n]? = some task
  distinct : ∀ v w n task task', m.worker v = some (n, task) → m.worker w = some (n, task') → v = w
  ran : ∀ r ∈ m.ran, r.number < m.taken ∧ m.accepted[r.number]? = some r.task
  apart : ∀ r ∈ m.ran, ∀ w n task, m.worker w = some (n, task) → r.number ≠ n
  all : ∀ n, n < m.taken → (∃ r ∈ m.ran, r.number = n) ∨ ∃ w task, m.worker w = some (n, task)
  state : oneAfterAnother s₀ m.ran = some m.server

variable {s₀ : Server} {m m' : Dispatch} {c : Ptr} {op : DispatchOp}

theorem DispatchOk.start (s₀ : Server) : DispatchOk s₀ (Dispatch.start s₀) where
  queue := ⟨Nat.zero_lt_of_ne_zero (by decide), Nat.zero_le _, rfl⟩
  waiting := rfl
  taken_le := Nat.le_refl 0
  held := by
    intro w n task h
    cases h
  distinct := by
    intro v w n task task' h
    cases h
  ran := fun r hr => absurd hr List.not_mem_nil
  apart := fun r hr => absurd hr List.not_mem_nil
  all := fun n hn => absurd hn (Nat.not_lt_zero n)
  state := rfl

/-- What the workers have after one of them has put its task down or taken one. -/
theorem worker_update {v w : Fin workerThreads} {x : Option (Nat × Task)} {n : Nat} {task : Task}
    (h : Function.update m.worker w x v = some (n, task)) :
    (v = w ∧ x = some (n, task)) ∨ (v ≠ w ∧ m.worker v = some (n, task)) := by
  by_cases hv : v = w
  · rw [hv, Function.update_self] at h
    exact Or.inl ⟨hv, h⟩
  · rw [Function.update_of_ne hv] at h
    exact Or.inr ⟨hv, h⟩

theorem worker_cleared {v w : Fin workerThreads} {n : Nat} {task : Task}
    (h : Function.update m.worker w none v = some (n, task)) : v ≠ w ∧ m.worker v = some (n, task) := by
  rcases worker_update h with ⟨_, hnone⟩ | hold
  · cases hnone
  · exact hold

/-- `process_client_command`. -/
theorem DispatchOk.command (h : DispatchOk s₀ m) (hroom : m.queue.count ≠ maxQueuedTasks) (task : Task) :
    DispatchOk s₀ { m with queue := m.queue.put task, accepted := m.accepted ++ [task] } := by
  obtain ⟨hqueue, hcontents⟩ := h.queue.put hroom task
  have hkept : ∀ (n : Nat) x, m.accepted[n]? = some x → (m.accepted ++ [task])[n]? = some x := by
    intro n x hn
    rw [List.getElem?_append_left (List.getElem?_eq_some_iff.mp hn).1, hn]
  refine ⟨hqueue, ?_, ?_, ?_, h.distinct, ?_, h.apart, h.all, h.state⟩
  · rw [hcontents, h.waiting, List.drop_append_of_le_length h.taken_le]
  · rw [List.length_append]
    exact Nat.le_add_right_of_le h.taken_le
  · intro w n x hw
    obtain ⟨hlt, hx⟩ := h.held w n x hw
    exact ⟨hlt, hkept n x hx⟩
  · intro r hr
    obtain ⟨hlt, hx⟩ := h.ran r hr
    exact ⟨hlt, hkept _ _ hx⟩

/-- A worker takes the first task. -/
theorem DispatchOk.take (h : DispatchOk s₀ m) {w : Fin workerThreads} (hw : m.worker w = none)
    (hne : m.queue.count ≠ 0) :
    DispatchOk s₀ { m with
      queue := m.queue.take.2
      worker := Function.update m.worker w (some (m.taken, m.queue.take.1))
      taken := m.taken + 1 } := by
  obtain ⟨hqueue, hcontents⟩ := h.queue.take hne
  rw [h.waiting] at hcontents
  have hfirst : m.accepted[m.taken]? = some m.queue.take.1 := by
    rw [← List.head?_drop, hcontents, List.head?_cons]
  have hlt : m.taken < m.accepted.length := (List.getElem?_eq_some_iff.mp hfirst).1
  refine ⟨hqueue, ?_, hlt, ?_, ?_, ?_, ?_, ?_, h.state⟩
  · rw [← List.drop_drop, hcontents]
    rfl
  · intro v n task hv
    rcases worker_update hv with ⟨_, hnew⟩ | ⟨_, hold⟩
    · cases hnew
      exact ⟨Nat.lt_succ_self _, hfirst⟩
    · obtain ⟨hn, htask⟩ := h.held v n task hold
      exact ⟨Nat.lt_succ_of_lt hn, htask⟩
  · intro v u n task task' hv hu
    rcases worker_update hv with ⟨hvw, hnew⟩ | ⟨_, hold⟩
    · rcases worker_update hu with ⟨huw, _⟩ | ⟨_, hold'⟩
      · rw [hvw, huw]
      · cases hnew
        exact absurd (h.held u _ _ hold').1 (Nat.lt_irrefl _)
    · rcases worker_update hu with ⟨_, hnew⟩ | ⟨_, hold'⟩
      · cases hnew
        exact absurd (h.held v _ _ hold).1 (Nat.lt_irrefl _)
      · exact h.distinct v u n task task' hold hold'
  · intro r hr
    obtain ⟨hn, htask⟩ := h.ran r hr
    exact ⟨Nat.lt_succ_of_lt hn, htask⟩
  · intro r hr v n task hv
    rcases worker_update hv with ⟨_, hnew⟩ | ⟨_, hold⟩
    · cases hnew
      exact Nat.ne_of_lt (h.ran r hr).1
    · exact h.apart r hr v n task hold
  · intro n hn
    rcases Nat.lt_succ_iff_lt_or_eq.mp hn with hn | rfl
    · rcases h.all n hn with hran | ⟨v, task, hv⟩
      · exact Or.inl hran
      · refine Or.inr ⟨v, task, ?_⟩
        have hvw : v ≠ w := by
          rintro rfl
          rw [hw] at hv
          cases hv
        exact (Function.update_of_ne hvw _ _).trans hv
    · exact Or.inr ⟨w, m.queue.take.1, Function.update_self ..⟩

/-- A worker runs a handler. -/
theorem DispatchOk.run (h : DispatchOk s₀ m) {w : Fin workerThreads} {n : Nat} {task : Task}
    (hw : m.worker w = some (n, task)) {env : Env} {s : Server}
    (hrun : runHandler env m.server task = some s) :
    DispatchOk s₀ { m with
      server := s, worker := Function.update m.worker w none, ran := m.ran ++ [⟨n, task, env⟩] } := by
  have hmem : ∀ r ∈ m.ran ++ [⟨n, task, env⟩], r ∈ m.ran ∨ r = ⟨n, task, env⟩ := by
    intro r hr
    rcases List.mem_append.mp hr with hr | hr
    · exact Or.inl hr
    · exact Or.inr (List.mem_singleton.mp hr)
  refine ⟨h.queue, h.waiting, h.taken_le, ?_, ?_, ?_, ?_, ?_, ?_⟩
  · intro v k x hv
    exact h.held v k x (worker_cleared hv).2
  · intro v u k x x' hv hu
    exact h.distinct v u k x x' (worker_cleared hv).2 (worker_cleared hu).2
  · intro r hr
    rcases hmem r hr with hr | rfl
    · exact h.ran r hr
    · exact h.held w n task hw
  · intro r hr v k x hv
    obtain ⟨hvw, hv⟩ := worker_cleared hv
    rcases hmem r hr with hr | rfl
    · exact h.apart r hr v k x hv
    · rintro rfl
      exact hvw (h.distinct v w n x task hv hw)
  · intro k hk
    rcases h.all k hk with ⟨r, hr, hrk⟩ | ⟨v, x, hv⟩
    · exact Or.inl ⟨r, List.mem_append_left _ hr, hrk⟩
    · by_cases hvw : v = w
      · rw [hvw, hw] at hv
        cases hv
        exact Or.inl ⟨_, List.mem_append_right _ (List.mem_singleton.mpr rfl), rfl⟩
      · exact Or.inr ⟨v, x, (Function.update_of_ne hvw _ _).trans hv⟩
  · rw [oneAfterAnother, run_append]
    have hbefore : Runs.run (fun s (r : Ran) => runHandler r.env s r.task) s₀ m.ran = some m.server := h.state
    rw [hbefore, Option.bind_some, Runs.run, hrun, Option.bind_some, Runs.run]

/-- What a step can do. -/
theorem dispatch_cases (h : m.step op = some m') :
    m' = m ∨
    (∃ c line, op = .command c line ∧ m.queue.count ≠ maxQueuedTasks ∧
      m' = { m with queue := m.queue.put ⟨c, line⟩, accepted := m.accepted ++ [⟨c, line⟩] }) ∨
    (∃ w, op = .take w ∧ m.worker w = none ∧ m.queue.count ≠ 0 ∧
      m' = { m with
        queue := m.queue.take.2
        worker := Function.update m.worker w (some (m.taken, m.queue.take.1))
        taken := m.taken + 1 }) ∨
    ∃ w env n task s, op = .run w env ∧ m.worker w = some (n, task) ∧
      runHandler env m.server task = some s ∧
      m' = { m with
        server := s, worker := Function.update m.worker w none, ran := m.ran ++ [⟨n, task, env⟩] } := by
  cases op with
  | command c line =>
      rw [Dispatch.step] at h
      by_cases hfull : m.queue.count = maxQueuedTasks
      · rw [if_pos hfull] at h
        exact Or.inl (Option.some.inj h).symm
      · rw [if_neg hfull] at h
        exact Or.inr (Or.inl ⟨c, line, rfl, hfull, (Option.some.inj h).symm⟩)
  | take w =>
      rw [Dispatch.step] at h
      by_cases hready : m.worker w = none ∧ m.queue.count ≠ 0
      · rw [if_pos hready] at h
        exact Or.inr (Or.inr (Or.inl ⟨w, rfl, hready.1, hready.2, (Option.some.inj h).symm⟩))
      · rw [if_neg hready] at h
        exact Or.inl (Option.some.inj h).symm
  | run w env =>
      rw [Dispatch.step] at h
      cases hw : m.worker w with
      | none =>
          rw [hw] at h
          exact Or.inl (Option.some.inj h).symm
      | some x =>
          obtain ⟨n, task⟩ := x
          rw [hw] at h
          obtain ⟨s, hs, rfl⟩ := Option.map_eq_some_iff.mp h
          exact Or.inr (Or.inr (Or.inr ⟨w, env, n, task, s, rfl, hw, hs, rfl⟩))

theorem DispatchOk.step (h : DispatchOk s₀ m) (hstep : m.step op = some m') : DispatchOk s₀ m' := by
  rcases dispatch_cases hstep with rfl | ⟨c, line, _, hroom, rfl⟩ | ⟨w, _, hw, hne, rfl⟩ |
    ⟨w, env, n, task, s, _, hw, hs, rfl⟩
  · exact h
  · exact h.command hroom _
  · exact h.take hw hne
  · exact h.run hw hs

/-! ### In order, unless overtaken -/

/-- The handlers of the client ran in order, and its tasks that workers have are
later ones. -/
structure HandlersOrdered (c : Ptr) (m : Dispatch) : Prop where
  inOrder : m.InOrder c
  ahead : ∀ r ∈ m.ranFor c, ∀ w n task, m.worker w = some (n, task) → task.c = c → r.number < n

theorem mem_ranFor {r : Ran} : r ∈ m.ranFor c ↔ r ∈ m.ran ∧ r.task.c = c := by
  rw [Dispatch.ranFor, List.mem_filter, decide_eq_true_eq]

theorem HandlersOrdered.start (c : Ptr) (s₀ : Server) : HandlersOrdered c (Dispatch.start s₀) where
  inOrder := List.Pairwise.nil
  ahead := fun _ hr => absurd (mem_ranFor.mp hr).1 List.not_mem_nil

theorem ranFor_snoc {x : Ran} (hc : x.task.c = c) :
    (m.ran ++ [x]).filter (fun r => r.task.c = c) = m.ranFor c ++ [x] := by
  simp only [Dispatch.ranFor, List.filter_append, List.filter_cons, List.filter_nil, hc, decide_true, if_true]

theorem ranFor_snoc_other {x : Ran} (hc : x.task.c ≠ c) :
    (m.ran ++ [x]).filter (fun r => r.task.c = c) = m.ranFor c := by
  simp only [Dispatch.ranFor, List.filter_append, List.filter_cons, List.filter_nil, hc, decide_false,
    Bool.false_eq_true, if_false, List.append_nil]

/-- A handler of the client runs, and no other worker has an earlier task of it. -/
theorem HandlersOrdered.run (h : HandlersOrdered c m) (hok : DispatchOk s₀ m) {w : Fin workerThreads} {n : Nat} {task : Task}
    (hw : m.worker w = some (n, task)) {env : Env} (hfirst : NotOvertaking c m (.run w env)) (s : Server) :
    HandlersOrdered c { m with
      server := s, worker := Function.update m.worker w none, ran := m.ran ++ [⟨n, task, env⟩] } := by
  by_cases hc : task.c = c
  · have hran := ranFor_snoc (m := m) (x := ⟨n, task, env⟩) hc
    refine ⟨?_, ?_⟩
    · rw [Dispatch.InOrder, Dispatch.ranFor, hran, List.pairwise_append]
      refine ⟨h.inOrder, List.pairwise_singleton _ _, ?_⟩
      intro r hr r' hr'
      rw [List.mem_singleton.mp hr']
      exact h.ahead r hr w n task hw hc
    · intro r hr v k x hv hx
      rw [Dispatch.ranFor, hran] at hr
      obtain ⟨hvw, hv⟩ := worker_cleared hv
      rcases List.mem_append.mp hr with hr | hr
      · exact h.ahead r hr v k x hv hx
      · rw [List.mem_singleton.mp hr]
        refine Nat.lt_of_le_of_ne (hfirst n task hw hc v k x hv hx) ?_
        rintro rfl
        exact hvw (hok.distinct v w n x task hv hw)
  · have hran := ranFor_snoc_other (m := m) (x := ⟨n, task, env⟩) hc
    refine ⟨?_, ?_⟩
    · rw [Dispatch.InOrder, Dispatch.ranFor, hran]
      exact h.inOrder
    · intro r hr v k x hv hx
      rw [Dispatch.ranFor, hran] at hr
      exact h.ahead r hr v k x (worker_cleared hv).2 hx

theorem HandlersOrdered.step (h : HandlersOrdered c m) (hok : DispatchOk s₀ m) (hfirst : NotOvertaking c m op)
    (hstep : m.step op = some m') : HandlersOrdered c m' := by
  rcases dispatch_cases hstep with rfl | ⟨d, line, _, _, rfl⟩ | ⟨w, _, _, _, rfl⟩ |
    ⟨w, env, n, task, s, rfl, hw, _, rfl⟩
  · exact h
  · exact ⟨h.inOrder, h.ahead⟩
  · refine ⟨h.inOrder, ?_⟩
    intro r hr v n task hv hc
    rcases worker_update hv with ⟨_, hnew⟩ | ⟨_, hold⟩
    · cases hnew
      exact (hok.ran r (mem_ranFor.mp hr).1).1
    · exact h.ahead r hr v n task hold hc
  · exact h.run hok hw hfirst s

/-! ### A run that is done -/

/-- What was accepted and what ran is never taken back. -/
theorem run_grows {ops : List DispatchOp} (hrun : run Dispatch.step m ops = some m') :
    m.ran <+: m'.ran ∧ m.accepted <+: m'.accepted := by
  refine run_some_invariant (I := fun m' => m.ran <+: m'.ran ∧ m.accepted <+: m'.accepted)
    (P := fun _ _ => True) ?_ ⟨List.prefix_rfl, List.prefix_rfl⟩ ?_ hrun
  · rintro m₁ op m₂ ⟨hran, haccepted⟩ _ hstep
    rcases dispatch_cases hstep with rfl | ⟨d, line, _, _, rfl⟩ | ⟨w, _, _, _, rfl⟩ |
      ⟨w, env, n, task, s, _, _, _, rfl⟩
    · exact ⟨hran, haccepted⟩
    · exact ⟨hran, haccepted.trans (List.prefix_append _ _)⟩
    · exact ⟨hran, haccepted⟩
    · exact ⟨hran.trans (List.prefix_append _ _), haccepted⟩
  · exact along_true Dispatch.step m ops

theorem dispatchRun_ok (h : DispatchOk s₀ m) {ops : List DispatchOp}
    (hrun : run Dispatch.step m ops = some m') : DispatchOk s₀ m' :=
  run_some_invariant (fun _ _ _ hok _ hstep => hok.step hstep) h (along_true Dispatch.step m ops) hrun

/-- When everything is done, each task that was accepted has run. -/
theorem DispatchOk.done (h : DispatchOk s₀ m) (hdone : m.Done) {n : Nat} {task : Task}
    (hn : m.accepted[n]? = some task) : ∃ r ∈ m.ran, r.number = n ∧ r.task = task := by
  have hall : m.accepted.length ≤ m.taken := by
    rw [← List.drop_eq_nil_iff, ← h.waiting, TaskQueue.contents, hdone.1]
    rfl
  rcases h.all n (Nat.lt_of_lt_of_le (List.getElem?_eq_some_iff.mp hn).1 hall) with ⟨r, hr, hrn⟩ | ⟨w, x, hw⟩
  · have htask := (h.ran r hr).2
    rw [hrn, hn, Option.some.injEq] at htask
    exact ⟨r, hr, hrn, htask.symm⟩
  · rw [hdone.2 w] at hw
    cases hw

/-- Where a worker runs a command while another has an earlier one, the earlier
one runs later. -/
theorem notOvertaking_of_inOrder (h : DispatchOk s₀ m) {ops : List DispatchOp}
    (hrun : run Dispatch.step m ops = some m') (hdone : m'.Done) (horder : m'.InOrder c) :
    Along Dispatch.step (NotOvertaking c) m ops := by
  induction ops generalizing m with
  | nil => trivial
  | cons op rest ih =>
      rw [Runs.run] at hrun
      obtain ⟨m₁, hstep, hrest⟩ := Option.bind_eq_some_iff.mp hrun
      have hok₁ := h.step hstep
      refine ⟨?_, ?_⟩
      · cases op with
        | command d line => trivial
        | take w => trivial
        | run w env =>
            intro n task hw hc v k task' hv hc'
            rcases Nat.lt_or_ge k n with hlt | hge
            · rw [Dispatch.step, hw] at hstep
              obtain ⟨s, _, rfl⟩ := Option.map_eq_some_iff.mp hstep
              have hvw : v ≠ w := by
                rintro rfl
                rw [hw] at hv
                cases hv
                exact Nat.lt_irrefl _ hlt
              have hv₁ : Function.update m.worker w none v = some (k, task') :=
                (Function.update_of_ne hvw _ _).trans hv
              obtain ⟨⟨later, hran⟩, haccepted⟩ := run_grows hrest
              -- the earlier task has run at the end, after this one
              have hk : m'.accepted[k]? = some task' := by
                obtain ⟨more, hmore⟩ := haccepted
                have hold := (h.held v k task' hv).2
                rw [← hmore, List.getElem?_append_left (List.getElem?_eq_some_iff.mp hold).1, hold]
              obtain ⟨r, hr, rfl, rfl⟩ := (dispatchRun_ok hok₁ hrest).done hdone hk
              have hlater : r ∈ later := by
                rw [← hran] at hr
                rcases List.mem_append.mp hr with hr | hr
                · exact absurd rfl (hok₁.apart r hr v _ _ hv₁)
                · exact hr
              have hthis : ⟨n, task, env⟩ ∈ (m.ran ++ [(⟨n, task, env⟩ : Ran)]).filter fun r => r.task.c = c := by
                rw [List.mem_filter, decide_eq_true_eq]
                exact ⟨List.mem_append_right _ (List.mem_singleton.mpr rfl), hc⟩
              have hthat : r ∈ later.filter fun r => r.task.c = c := by
                rw [List.mem_filter, decide_eq_true_eq]
                exact ⟨hlater, hc'⟩
              rw [Dispatch.InOrder, Dispatch.ranFor, ← hran, List.filter_append, List.pairwise_append] at horder
              exact Nat.le_of_lt (horder.2.2 ⟨n, task, env⟩ hthis r hthat)
            · exact hge
      · intro m₂ hm₂
        rw [hstep, Option.some.injEq] at hm₂
        subst hm₂
        exact ih hok₁ hrest

/-- The commands of the client, as they were accepted, are the ones that ran. -/
theorem DispatchOk.ran_eq_accepted (h : DispatchOk s₀ m) (hdone : m.Done) (horder : m.InOrder c) :
    (m.ranFor c).map Ran.task = m.accepted.filter fun task => task.c = c := by
  have hpairs : (m.ranFor c).map (fun r => (r.task, r.number)) =
      m.accepted.zipIdx.filter fun x => x.1.c = c := by
    refine List.Pairwise.eq_of_mem_iff (r := fun x y : Task × Nat => x.2 < y.2) ?_ ?_ ?_
    · exact List.pairwise_map.mpr horder
    · refine List.Pairwise.filter _ ?_
      rw [List.pairwise_iff_getElem]
      intro i j hi hj hij
      simpa using hij
    · rintro ⟨task, n⟩
      simp only [List.mem_map, mem_ranFor, List.mem_filter, List.mem_zipIdx_iff_getElem?, decide_eq_true_eq,
        Prod.mk.injEq]
      constructor
      · rintro ⟨r, ⟨hr, hc⟩, rfl, rfl⟩
        exact ⟨(h.ran r hr).2, hc⟩
      · rintro ⟨hn, hc⟩
        obtain ⟨r, hr, hnumber, htask⟩ := h.done hdone hn
        exact ⟨r, ⟨hr, by rw [htask, hc]⟩, htask, hnumber⟩
  calc (m.ranFor c).map Ran.task = ((m.ranFor c).map fun r => (r.task, r.number)).map Prod.fst := by
        rw [List.map_map]
        rfl
    _ = (m.accepted.zipIdx.filter fun x => x.1.c = c).map Prod.fst := by rw [hpairs]
    _ = (m.accepted.zipIdx.map Prod.fst).filter fun task => task.c = c := by
        rw [List.filter_map]
        rfl
    _ = m.accepted.filter fun task => task.c = c := by rw [List.zipIdx_map_fst]

/-! ### A client that waits -/

/-- The command of the client with this number has not been run. -/
def Pending (c : Ptr) (m : Dispatch) (n : Nat) : Prop :=
  (∃ task, m.accepted[n]? = some task ∧ task.c = c) ∧ ∀ r ∈ m.ran, r.number ≠ n

/-- At most one command of the client has not been run. -/
def Single (c : Ptr) (m : Dispatch) : Prop := ∀ n k, Pending c m n → Pending c m k → n = k

theorem DispatchOk.pending_held (h : DispatchOk s₀ m) {w : Fin workerThreads} {n : Nat} {task : Task}
    (hw : m.worker w = some (n, task)) (hc : task.c = c) : Pending c m n :=
  ⟨⟨task, (h.held w n task hw).2, hc⟩, fun r hr => h.apart r hr w n task hw⟩

/-- A client whose commands have all been run. -/
theorem DispatchOk.not_pending (h : DispatchOk s₀ m) (hqueue : ∀ task ∈ m.queue.contents, task.c ≠ c)
    (hworker : ∀ w n task, m.worker w = some (n, task) → task.c ≠ c) (n : Nat) : ¬ Pending c m n := by
  rintro ⟨⟨task, hn, hc⟩, hran⟩
  rcases Nat.lt_or_ge n m.taken with hlt | hge
  · rcases h.all n hlt with ⟨r, hr, hrn⟩ | ⟨w, x, hw⟩
    · exact hran r hr hrn
    · have hx := (h.held w n x hw).2
      rw [hn, Option.some.injEq] at hx
      subst hx
      exact hworker w n task hw hc
  · refine hqueue task ?_ hc
    rw [h.waiting]
    refine List.mem_of_getElem? (i := n - m.taken) ?_
    rw [List.getElem?_drop, Nat.add_sub_cancel' hge, hn]

theorem Single.step (h : Single c m) (hok : DispatchOk s₀ m) (hone : OneAtATime c m op)
    (hstep : m.step op = some m') : Single c m' := by
  rcases dispatch_cases hstep with rfl | ⟨d, line, rfl, _, rfl⟩ | ⟨w, _, _, _, rfl⟩ |
    ⟨w, env, n, task, s, _, _, _, rfl⟩
  · exact h
  · -- a new number is pending only if it is the client's
    have hnew : ∀ n, Pending c { m with
        queue := m.queue.put ⟨d, line⟩, accepted := m.accepted ++ [⟨d, line⟩] } n →
          Pending c m n ∨ n = m.accepted.length ∧ d = c := by
      rintro n ⟨⟨task, hn, hc⟩, hran⟩
      dsimp only at hn
      rcases Nat.lt_or_ge n m.accepted.length with hlt | hge
      · rw [List.getElem?_append_left hlt] at hn
        exact Or.inl ⟨⟨task, hn, hc⟩, hran⟩
      · rw [List.getElem?_append_right hge, List.getElem?_singleton] at hn
        split at hn
        · rename_i hzero
          cases hn
          exact Or.inr ⟨Nat.le_antisymm (Nat.le_of_sub_eq_zero hzero) hge, hc⟩
        · cases hn
    intro n k hn hk
    rcases hnew n hn with hn | ⟨rfl, hd⟩
    · rcases hnew k hk with hk | ⟨_, hd⟩
      · exact h n k hn hk
      · exact absurd hn (hok.not_pending (hone hd).1 (hone hd).2 n)
    · rcases hnew k hk with hk | ⟨rfl, _⟩
      · exact absurd hk (hok.not_pending (hone hd).1 (hone hd).2 k)
      · rfl
  · exact h
  · intro n k hn hk
    exact h n k ⟨hn.1, fun r hr => hn.2 r (List.mem_append_left _ hr)⟩
      ⟨hk.1, fun r hr => hk.2 r (List.mem_append_left _ hr)⟩

/-- A client that waits is not overtaken. -/
theorem notOvertaking_of_oneAtATime {ops : List DispatchOp}
    (h : Along Dispatch.step (OneAtATime c) (Dispatch.start s₀) ops) :
    Along Dispatch.step (NotOvertaking c) (Dispatch.start s₀) ops := by
  refine along_of_invariant (I := fun m => DispatchOk s₀ m ∧ Single c m) ?_ ?_ ⟨DispatchOk.start s₀, ?_⟩ h
  · rintro m op m' ⟨hok, hsingle⟩ hone hstep
    exact ⟨hok.step hstep, hsingle.step hok hone hstep⟩
  · rintro m op ⟨hok, hsingle⟩ _
    cases op with
    | command d line => trivial
    | take w => trivial
    | run w env =>
        intro n task hw hc v k task' hv hc'
        exact Nat.le_of_eq (hsingle n k (hok.pending_held hw hc) (hok.pending_held hv hc'))
  · rintro n k ⟨⟨task, hn, _⟩, _⟩
    cases hn

/-! ### The order of the commands -/

/-- What holds of the commands in every run. -/
structure CommandsOrdered (s₀ : Server) (ops : List DispatchOp) (m : Dispatch) : Prop where
  /-- tasks are numbered as they were accepted -/
  numbered : ∀ r ∈ m.ran, m.accepted[r.number]? = some r.task
  /-- the state is that of running the handlers one after another -/
  state : oneAfterAnother s₀ m.ran = some m.server
  inOrder : ∀ c, Along Dispatch.step (NotOvertaking c) (Dispatch.start s₀) ops → m.InOrder c
  waiting : ∀ c, Along Dispatch.step (OneAtATime c) (Dispatch.start s₀) ops → m.InOrder c
  /-- once all is done, only overtaking can have changed the order -/
  overtaken : m.Done → ∀ c, m.InOrder c → Along Dispatch.step (NotOvertaking c) (Dispatch.start s₀) ops
  /-- in order means that the commands of the client are run as they came in -/
  commands : m.Done → ∀ c, m.InOrder c →
    (m.ranFor c).map Ran.task = m.accepted.filter fun task => task.c = c

/-- **The commands of a client take effect in order exactly if they do not
overtake each other**, for every scheduling of the workers. -/
theorem commands_in_order (s₀ : Server) (ops : List DispatchOp) (m : Dispatch)
    (hrun : run Dispatch.step (Dispatch.start s₀) ops = some m) : CommandsOrdered s₀ ops m := by
  have hok := dispatchRun_ok (DispatchOk.start s₀) hrun
  have horder : ∀ c, Along Dispatch.step (NotOvertaking c) (Dispatch.start s₀) ops → m.InOrder c := by
    intro c halong
    have hend := run_some_invariant (I := fun m => DispatchOk s₀ m ∧ HandlersOrdered c m)
      (fun _ _ _ h hfirst hstep => ⟨h.1.step hstep, h.2.step h.1 hfirst hstep⟩)
      ⟨DispatchOk.start s₀, HandlersOrdered.start c s₀⟩ halong hrun
    exact hend.2.inOrder
  refine ⟨fun r hr => (hok.ran r hr).2, hok.state, horder, ?_, ?_, ?_⟩
  · intro c hone
    exact horder c (notOvertaking_of_oneAtATime hone)
  · intro hdone c hin
    exact notOvertaking_of_inOrder (DispatchOk.start s₀) hrun hdone hin
  · intro hdone c hin
    exact hok.ran_eq_accepted hdone hin

/-! ### `LOGIN` and `LOGOUT` -/

/-- Complete writes and no memory. -/
def plainEnv : Env := ⟨none, RoomRecord.zero, []⟩

/-- One client, at the address 1. -/
def oneClient : Server := acceptNewClient { plainEnv with malloc := some 1 } (Server.start emptyDb startTable) 4

def loginTask : Task := ⟨1, ascii "LOGIN admin admin123"⟩

def logoutTask : Task := ⟨1, ascii "LOGOUT"⟩

/-- The second command is sent after the first has been run. -/
def waitingOps : List DispatchOp :=
  [.command 1 loginTask.command, .take firstWorker, .run firstWorker plainEnv,
    .command 1 logoutTask.command, .take secondWorker, .run secondWorker plainEnv]

/-- Both commands are taken, and the second is run first. -/
def overtakingOps : List DispatchOp :=
  [.command 1 loginTask.command, .command 1 logoutTask.command, .take firstWorker, .take secondWorker,
    .run secondWorker plainEnv, .run firstWorker plainEnv]

/-- The numbers of the handlers that ran, and who is logged in. -/
def Dispatch.outcome (m : Dispatch) (c : Ptr) : List Nat × Option Int :=
  ((m.ranFor c).map Ran.number, (m.server.clientMem c).map Client.userId)

/-- The client is logged out at the end. -/
theorem waiting_in_order :
    ∃ m, run Dispatch.step (Dispatch.start oneClient) waitingOps = some m ∧
      CommandsOrdered oneClient waitingOps m ∧ m.outcome 1 = ([0, 1], some (-1)) := by
  have hend : (run Dispatch.step (Dispatch.start oneClient) waitingOps).map (fun m => m.outcome 1) =
      some ([0, 1], some (-1)) := by decide +kernel
  obtain ⟨m, hm, hout⟩ := Option.map_eq_some_iff.mp hend
  exact ⟨m, hm, commands_in_order oneClient waitingOps m hm, hout⟩

/-- The client is logged in at the end, and would not be if its commands had
been run one after another. -/
theorem later_command_first :
    (¬ ∀ s₀ ops m, run Dispatch.step (Dispatch.start s₀) ops = some m → m.Done → ∀ c, m.InOrder c) ∧
    ((run Dispatch.step (Dispatch.start oneClient) overtakingOps).map fun m => m.outcome 1) =
      some ([1, 0], some 0) ∧
    ((oneAfterAnother oneClient [⟨0, loginTask, plainEnv⟩, ⟨1, logoutTask, plainEnv⟩]).map fun s =>
      (s.clientMem 1).map Client.userId) = some (some (-1)) := by
  have hend : ((run Dispatch.step (Dispatch.start oneClient) overtakingOps).map fun m => m.outcome 1) =
      some ([1, 0], some 0) := by decide +kernel
  refine ⟨?_, hend, by decide +kernel⟩
  intro hall
  have hfinished : ((run Dispatch.step (Dispatch.start oneClient) overtakingOps).map fun m =>
      decide (m.queue.count = 0) && (List.finRange workerThreads).all fun w => (m.worker w).isNone) =
        some true := by decide +kernel
  obtain ⟨m, hm, hout⟩ := Option.map_eq_some_iff.mp hend
  rw [hm, Option.map_some, Option.some.injEq, Bool.and_eq_true] at hfinished
  have hdone : m.Done := by
    refine ⟨of_decide_eq_true hfinished.1, ?_⟩
    intro w
    exact Option.isNone_iff_eq_none.mp (List.all_eq_true.mp hfinished.2 w (List.mem_finRange w))
  have horder := hall oneClient overtakingOps m hm hdone 1
  have hnumbers : (m.ranFor 1).map Ran.number = [1, 0] := congrArg Prod.fst hout
  have hsorted : ((m.ranFor 1).map Ran.number).Pairwise (· < ·) := List.pairwise_map.mpr horder
  rw [hnumbers] at hsorted
  exact absurd hsorted (by decide)

end EchoLink
