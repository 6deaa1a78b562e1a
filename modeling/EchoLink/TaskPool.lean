import EchoLink.ClientTable
import EchoLink.BoundedQueue
import EchoLink.References
import EchoLink.Runs

/-!
# The epoll thread and the workers

`handle_tcp_command` takes a reference to the client and hands the command to
`process_client_command`, which queues a task or, with the queue full, gives
the reference back.  A worker takes a task, runs it if the client is still
connected, and gives the reference back.  `disconnect_client` gives back the
reference of `clients[]`.  Whoever drops the last reference frees the client.

Each section under `task_mutex` or `clients_mutex` is one step, and so is the
worker's look at `is_active` with what follows it; the threads take their
steps in any order.  Reading or freeing a client that is not allocated has no
outcome.  The other fields of the clients, the rooms and the files are left
out: no handler touches what is modelled here.

`Pool.refs` counts the references a client should have.  It accounts for
`ref_count` in every run (`PoolOk`), except that a worker which finds no
command in its task goes on without dropping its reference (`continue`), and
that reference is lost for good.
-/

namespace EchoLink

open CText BoundedQueue References PartialMap Runs

/-! ### The task queue -/

def workerThreads : Nat := 8

def maxQueuedTasks : Nat := 256

/-- `worker_task`. -/
structure Task where
  c : Ptr
  command : Bytes
  deriving DecidableEq

/-- `task_queue` and its counters. -/
structure TaskQueue where
  tasks : Nat → Task
  head : Nat
  tail : Nat
  count : Nat

/-- The tasks that are queued, from `task_head` on. -/
def TaskQueue.contents (q : TaskQueue) : List Task := window maxQueuedTasks q.tasks q.head q.count

def TaskQueue.put (q : TaskQueue) (task : Task) : TaskQueue where
  tasks := Function.update q.tasks q.tail task
  head := q.head
  tail := (q.tail + 1) % maxQueuedTasks
  count := q.count + 1

def TaskQueue.take (q : TaskQueue) : Task × TaskQueue :=
  (q.tasks q.head, { q with head := (q.head + 1) % maxQueuedTasks, count := q.count - 1 })

/-! ### The threads -/

/-- Where the epoll thread stands. -/
inductive EpollPhase where
  /-- in the event loop -/
  | waiting
  /-- it holds a reference and calls `process_client_command` -/
  | received (c : Ptr) (command : Bytes)
  /-- the queue was full, and the reference has to be given back -/
  | refused (c : Ptr)

/-- Where a worker stands. -/
inductive WorkerPhase where
  | waiting
  /-- it has a task and has not looked at the client yet -/
  | took (task : Task)
  /-- it runs the command, or passes over it, and will give the reference back -/
  | running (c : Ptr)

/-- The table, the queue and the threads; `accepted` and `taken` are the tasks
queued and taken out so far. -/
structure Pool where
  table : Table
  queue : TaskQueue
  epoll : EpollPhase
  worker : Fin workerThreads → WorkerPhase
  accepted : List Task
  taken : List Task

/-- After `network_init` and `client_handler_init`. -/
def Pool.start : Pool where
  table := { clients := fun _ => none, clientCount := 0, fdToSlot := fun _ => none, mem := fun _ => none }
  queue := { tasks := fun _ => ⟨0, []⟩, head := 0, tail := 0, count := 0 }
  epoll := .waiting
  worker := fun _ => .waiting
  accepted := []
  taken := []

/-- One step of one of the threads. -/
inductive PoolOp where
  /-- `accept_new_client`, with what `malloc` returns -/
  | accept (fd : Nat) (malloc : Option Ptr)
  /-- `handle_tcp_command` up to the end of its section; no bytes mean that
  `recv` returned 0 or failed -/
  | receive (fd : Nat) (bytes : Bytes)
  /-- the next section of `process_client_command` -/
  | epoll
  /-- the next step of a worker -/
  | worker (w : Fin workerThreads)

/-- `handle_tcp_command`: the client of the descriptor is looked up and gets
one more reference. -/
def Pool.receive (s : Pool) (fd : Nat) (bytes : Bytes) : Option Pool :=
  if bytes = [] then (s.table.disconnect fd).map fun t => { s with table := t }
  else
    match (s.table.slotOf fd).bind s.table.clients with
    | none => some s
    | some c =>
        (s.table.mem c).map fun x =>
          { s with
            table := { s.table with
              mem := Function.update s.table.mem c (some { x with refCount := x.refCount + 1 }) }
            epoll := .received c (cstr (bytes.take (maxPacketSize - 1))) }

/-- The sections of `process_client_command`. -/
def Pool.stepEpoll (s : Pool) : Option Pool :=
  match s.epoll with
  | .waiting => some s
  | .received c command =>
      if s.queue.count = maxQueuedTasks then
        -- `send_error` reads `c->fd`
        (s.table.mem c).map fun _ => { s with epoll := .refused c }
      else
        some { s with
          queue := s.queue.put ⟨c, command⟩
          epoll := .waiting
          accepted := s.accepted ++ [⟨c, command⟩] }
  | .refused c => (s.table.drop c).map fun t => { s with table := t, epoll := .waiting }

/-- A step of `worker_thread_main`. -/
def Pool.stepWorker (s : Pool) (w : Fin workerThreads) : Option Pool :=
  match s.worker w with
  | .waiting =>
      if s.queue.count = 0 then some s
      else
        some { s with
          queue := s.queue.take.2
          worker := Function.update s.worker w (.took s.queue.take.1)
          taken := s.taken ++ [s.queue.take.1] }
  | .took task =>
      (s.table.mem task.c).map fun x =>
        -- `if(cmd==NULL) continue;` passes over the end of the loop
        if x.isActive = true ∧ splitCommand task.command = none then
          { s with worker := Function.update s.worker w .waiting }
        else { s with worker := Function.update s.worker w (.running task.c) }
  | .running c =>
      (s.table.drop c).map fun t =>
        { s with table := t, worker := Function.update s.worker w .waiting }

/-- One step; the epoll thread takes up an event only when it is done with the
one before. -/
def Pool.step (s : Pool) : PoolOp → Option Pool
  | .accept fd malloc =>
      match s.epoll with
      | .waiting => some { s with table := s.table.accept malloc fd }
      | _ => some s
  | .receive fd bytes =>
      match s.epoll with
      | .waiting => s.receive fd bytes
      | _ => some s
  | .epoll => s.stepEpoll
  | .worker w => s.stepWorker w

/-- The tasks that are queued. -/
def Pool.queued (s : Pool) : List Task := s.queue.contents

/-! ### References -/

/-- The client an epoll phase holds a reference to. -/
def EpollPhase.client : EpollPhase → Option Ptr
  | .waiting => none
  | .received c _ => some c
  | .refused c => some c

/-- The client whose task a worker is processing. -/
def WorkerPhase.client : WorkerPhase → Option Ptr
  | .waiting => none
  | .took task => some task.c
  | .running c => some c

/-- 1 for the address itself. -/
def one (c : Ptr) (x : Option Ptr) : Nat := if x = some c then 1 else 0

/-- The references to a client: in `clients[]`, in the queue, with a worker and
with the epoll thread. -/
def references (clients : Fin maxClients → Option Ptr) (queued : List Task)
    (worker : Fin workerThreads → WorkerPhase) (epoll : EpollPhase) (c : Ptr) : Nat :=
  (∑ i, one c (clients i)) + (queued.map Task.c).count c + (∑ w, one c (worker w).client) +
    one c epoll.client

def Pool.refs (s : Pool) : Ptr → Nat := references s.table.clients s.queued s.worker s.epoll

/-- The counts that the clients carry. -/
def Table.counts (t : Table) (c : Ptr) : Option Int := (t.mem c).map Connection.refCount

/-! ### The queue is first in, first out -/

/-- The counters of the queue fit together. -/
structure QueueOk (q : TaskQueue) : Prop where
  head : q.head < maxQueuedTasks
  count : q.count ≤ maxQueuedTasks
  tail : q.tail = (q.head + q.count) % maxQueuedTasks

variable {q : TaskQueue}

theorem QueueOk.put (h : QueueOk q) (hroom : q.count ≠ maxQueuedTasks) (task : Task) :
    QueueOk (q.put task) ∧ (q.put task).contents = q.contents ++ [task] := by
  have hlt : q.count < maxQueuedTasks := Nat.lt_of_le_of_ne h.count hroom
  refine ⟨⟨h.head, hlt, ?_⟩, ?_⟩
  · simp only [TaskQueue.put, h.tail]
    rw [Nat.mod_add_mod, Nat.add_assoc]
  · simp only [TaskQueue.contents, TaskQueue.put, h.tail]
    exact window_push _ _ _ hlt

theorem QueueOk.take (h : QueueOk q) (hne : q.count ≠ 0) :
    QueueOk q.take.2 ∧ q.contents = q.take.1 :: q.take.2.contents := by
  obtain ⟨n, hn⟩ := Nat.exists_eq_succ_of_ne_zero hne
  refine ⟨⟨Nat.mod_lt _ (by decide), ?_, ?_⟩, ?_⟩
  · exact Nat.le_trans (Nat.sub_le _ _) h.count
  · have harith : q.head + 1 + (q.count - 1) = q.head + q.count := by omega
    simp only [TaskQueue.take]
    rw [h.tail, Nat.mod_add_mod, harith]
  · simp only [TaskQueue.contents, TaskQueue.take, hn]
    exact window_pop _ h.head n

/-! ### The invariant -/

/-- **The invariant.**  `ref_count` is the number of references to a client,
those that were lost included; nothing is lost from the queue; and the epoll
thread only works for clients in `clients[]`. -/
structure PoolOk (lost : Ptr → Nat) (s : Pool) : Prop where
  counted : Counted s.table.counts fun c => s.refs c + lost c
  queue : QueueOk s.queue
  fifo : s.taken ++ s.queued = s.accepted
  connected : ∀ c, s.epoll.client = some c → ∃ i, s.table.clients i = some c

/-- `malloc` returns memory that is not in use. -/
def PoolFresh (s : Pool) : PoolOp → Prop
  | .accept _ malloc => ∀ c, malloc = some c → s.table.mem c = none
  | _ => True

/-- No worker is about to pass over a task without a command for a client that
is connected. -/
def HasCommand (s : Pool) : PoolOp → Prop
  | .worker w => ∀ task x, s.worker w = .took task → s.table.mem task.c = some x →
      x.isActive = true → splitCommand task.command ≠ none
  | _ => True

variable {s s' : Pool} {t : Table} {c : Ptr} {lost : Ptr → Nat}

@[simp] theorem one_none (c : Ptr) : one c none = 0 := rfl

@[simp] theorem one_self (c : Ptr) : one c (some c) = 1 := if_pos rfl

theorem one_of_ne {d : Ptr} (h : d ≠ c) : one d (some c) = 0 := by
  unfold one
  rw [if_neg]
  intro heq
  exact h (Option.some.inj heq).symm

/-- A slot of `clients[]` changes. -/
theorem refs_clients (s : Pool) (i : Fin maxClients) (x : Option Ptr) (d : Ptr) :
    references (Function.update s.table.clients i x) s.queued s.worker s.epoll d +
      one d (s.table.clients i) = s.refs d + one d x := by
  have hsum := sum_update (one d) s.table.clients i x
  unfold Pool.refs references
  omega

/-- The epoll thread moves on. -/
theorem refs_epoll (s : Pool) (ph : EpollPhase) (d : Ptr) :
    references s.table.clients s.queued s.worker ph d + one d s.epoll.client =
      s.refs d + one d ph.client := by
  unfold Pool.refs references
  omega

/-- A worker moves on. -/
theorem refs_worker (s : Pool) (w : Fin workerThreads) (ph : WorkerPhase) (d : Ptr) :
    references s.table.clients s.queued (Function.update s.worker w ph) s.epoll d +
      one d (s.worker w).client = s.refs d + one d ph.client := by
  have hsum := sum_update (fun ph : WorkerPhase => one d ph.client) s.worker w ph
  unfold Pool.refs references
  omega

theorem count_task (d : Ptr) (task : Task) (tasks : List Task) :
    ((task :: tasks).map Task.c).count d = (tasks.map Task.c).count d + one d (some task.c) := by
  rw [List.map_cons, List.count_cons]
  unfold one
  simp only [beq_iff_eq, Option.some.injEq]

/-- The reference of the epoll thread goes into the queue. -/
theorem refs_put (s : Pool) (task : Task) (h : s.epoll.client = some task.c) (d : Ptr) :
    references s.table.clients (s.queued ++ [task]) s.worker .waiting d = s.refs d := by
  have hcount : ((s.queued ++ [task]).map Task.c).count d =
      (s.queued.map Task.c).count d + one d (some task.c) := by
    rw [List.map_append, List.count_append, count_task]
    simp
  unfold Pool.refs references
  rw [hcount, h]
  simp only [EpollPhase.client, one_none]
  omega

/-- The reference of the first task goes to a worker. -/
theorem refs_take (s : Pool) {task : Task} {rest : List Task} {w : Fin workerThreads}
    (hqueued : s.queued = task :: rest) (hw : (s.worker w).client = none) (d : Ptr) :
    references s.table.clients rest (Function.update s.worker w (.took task)) s.epoll d =
      s.refs d := by
  have hsum := sum_update (fun ph : WorkerPhase => one d ph.client) s.worker w (.took task)
  have hclient : (WorkerPhase.took task).client = some task.c := rfl
  simp only [hw, one_none, hclient] at hsum
  unfold Pool.refs references
  rw [hqueued, count_task]
  omega

theorem refs_pos_of_client {i : Fin maxClients} (h : s.table.clients i = some c) : 0 < s.refs c := by
  have hle := le_sum (one c) s.table.clients i
  rw [h, one_self] at hle
  unfold Pool.refs references
  omega

theorem refs_pos_of_queued {task : Task} (h : task ∈ s.queued) : 0 < s.refs task.c := by
  have hpos : 0 < (s.queued.map Task.c).count task.c :=
    List.count_pos_iff.mpr (List.mem_map_of_mem h)
  unfold Pool.refs references
  omega

theorem refs_pos_of_worker {w : Fin workerThreads} (h : (s.worker w).client = some c) :
    0 < s.refs c := by
  have hle := le_sum (fun ph : WorkerPhase => one c ph.client) s.worker w
  simp only [h, one_self] at hle
  unfold Pool.refs references
  omega

theorem refs_pos_of_epoll (h : s.epoll.client = some c) : 0 < s.refs c := by
  unfold Pool.refs references
  rw [h, one_self]
  omega

/-- With nobody referring to a client, the count is 0. -/
theorem refs_eq_zero (htable : ∀ i, s.table.clients i ≠ some c) (hqueue : ∀ task ∈ s.queued, task.c ≠ c)
    (hworker : ∀ w, (s.worker w).client ≠ some c) (hepoll : s.epoll.client ≠ some c) :
    s.refs c = 0 := by
  have hclients : (∑ i, one c (s.table.clients i)) = 0 :=
    Finset.sum_eq_zero fun i _ => if_neg (htable i)
  have hworkers : (∑ w, one c (s.worker w).client) = 0 :=
    Finset.sum_eq_zero fun w _ => if_neg (hworker w)
  have hqueued : (s.queued.map Task.c).count c = 0 := by
    refine List.count_eq_zero.mpr ?_
    intro hmem
    obtain ⟨task, htask, hc⟩ := List.mem_map.mp hmem
    exact hqueue task htask hc
  have hone : one c s.epoll.client = 0 := if_neg hepoll
  unfold Pool.refs references
  rw [hclients, hworkers, hqueued, hone]

attribute [irreducible] references

theorem PoolOk.start : PoolOk (fun _ => 0) Pool.start where
  counted := by
    refine ⟨?_, ?_, ?_⟩
    · intro c n hc
      cases hc
    · intro c n hc
      cases hc
    · intro c _
      refine refs_eq_zero ?_ ?_ ?_ ?_
      · exact fun i hi => by cases hi
      · exact fun task htask => absurd htask List.not_mem_nil
      · exact fun w hw => by cases hw
      · exact fun he => by cases he
  queue := ⟨by decide, by decide, rfl⟩
  fifo := rfl
  connected := by
    intro c hc
    cases hc

/-- A client the pool refers to is allocated. -/
theorem PoolOk.alive (h : PoolOk lost s) (hc : 0 < s.refs c) : ∃ x, s.table.mem c = some x := by
  obtain ⟨n, hn⟩ := h.counted.exists_of_pos (p := c) (Nat.add_pos_left hc _)
  obtain ⟨x, hx, _⟩ := Option.map_eq_some_iff.mp hn
  exact ⟨x, hx⟩

theorem counts_update (t : Table) (c : Ptr) (y : Option Connection) :
    Table.counts { t with mem := Function.update t.mem c y } =
      Function.update t.counts c (y.map Connection.refCount) :=
  map_update Connection.refCount t.mem c y

theorem dropped_count (x : Connection) : x.dropped.map Connection.refCount = dropOne x.refCount := by
  unfold Connection.dropped dropOne
  split
  · rfl
  · rfl

/-! ### Steps -/

/-- A reference is given back by someone who held it. -/
theorem PoolOk.release (h : PoolOk lost s) {x : Connection} (hx : s.table.mem c = some x)
    {refs' : Ptr → Nat} (hrefs : ∀ d, refs' d + one d (some c) = s.refs d) :
    Counted (Function.update s.table.counts c (dropOne x.refCount)) fun d => refs' d + lost d := by
  have hcount : s.table.counts c = some x.refCount := by
    rw [Table.counts, hx, Option.map_some]
  refine h.counted.release hcount ?_ ?_
  · have hself := hrefs c
    rw [one_self] at hself
    omega
  · intro d hdc
    have hother := hrefs d
    rw [one_of_ne hdc] at hother
    omega

/-- The counts after a reference to a client is given back. -/
theorem counts_dropped (t : Table) (c : Ptr) (x : Connection) :
    Table.counts { t with mem := Function.update t.mem c x.dropped } =
      Function.update t.counts c (dropOne x.refCount) := by
  rw [counts_update, dropped_count]

theorem PoolOk.accept (h : PoolOk lost s) (hwaiting : s.epoll.client = none) (fd : Nat)
    {malloc : Option Ptr} (hfresh : ∀ c, malloc = some c → s.table.mem c = none) :
    PoolOk lost { s with table := s.table.accept malloc fd } := by
  have hconnected : ∀ (t : Table) c, s.epoll.client = some c → ∃ i, t.clients i = some c := by
    intro t c hc
    rw [hwaiting] at hc
    cases hc
  unfold Table.accept
  split
  · exact h
  · split
    · rename_i slot c hslot
      have hempty : s.table.clients slot = none := by
        simpa using List.find?_some hslot
      have hcount : s.table.counts c = none := by
        rw [Table.counts, hfresh c rfl, Option.map_none]
      have hrefs : ∀ d, references (Function.update s.table.clients slot (some c)) s.queued s.worker
          s.epoll d = s.refs d + one d (some c) := by
        intro d
        have hslots := refs_clients s slot (some c) d
        rw [hempty, one_none] at hslots
        exact hslots
      have halloc : Counted (Function.update s.table.counts c (some 1))
          fun d => references (Function.update s.table.clients slot (some c)) s.queued s.worker
            s.epoll d + lost d := by
        refine h.counted.alloc hcount ?_ ?_
        · rw [hrefs c, one_self]
          omega
        · intro d hdc
          rw [hrefs d, one_of_ne hdc, Nat.add_zero]
      refine ⟨halloc.congr ?_ fun _ => rfl, h.queue, h.fifo, hconnected _⟩
      exact map_update Connection.refCount s.table.mem c _
    · exact h

/-- **`disconnect_client`** drops the reference of `clients[]`. -/
theorem PoolOk.disconnect (h : PoolOk lost s) (hwaiting : s.epoll.client = none) (fd : Nat) :
    ∃ t, s.table.disconnect fd = some t ∧ PoolOk lost { s with table := t } := by
  unfold Table.disconnect
  split
  · exact ⟨_, rfl, h⟩
  · rename_i slot _
    split
    · exact ⟨_, rfl, h⟩
    · rename_i c hslot
      obtain ⟨x, hx⟩ := h.alive (refs_pos_of_client hslot)
      simp only [hx]
      split
      · have hrefs : ∀ d, references (Function.update s.table.clients slot none) s.queued s.worker
            s.epoll d + one d (some c) = s.refs d := by
          intro d
          have hslots := refs_clients s slot none d
          rw [hslot, one_none] at hslots
          exact hslots
        refine ⟨_, rfl, (h.release hx hrefs).congr ?_ fun _ => rfl, h.queue, h.fifo, ?_⟩
        · exact counts_dropped s.table c { x with isActive := false }
        · intro d hd
          rw [hwaiting] at hd
          cases hd
      · exact ⟨_, rfl, h⟩

/-- **`handle_tcp_command`** takes a reference to a client of the table. -/
theorem PoolOk.receive (h : PoolOk lost s) (hwaiting : s.epoll.client = none) (fd : Nat)
    (bytes : Bytes) : ∃ s', s.receive fd bytes = some s' ∧ PoolOk lost s' := by
  unfold Pool.receive
  split
  · obtain ⟨t, ht, hok⟩ := h.disconnect hwaiting fd
    exact ⟨_, by rw [ht, Option.map_some], hok⟩
  · split
    · exact ⟨_, rfl, h⟩
    · rename_i c hlookup
      obtain ⟨i, _, hi⟩ := Option.bind_eq_some_iff.mp hlookup
      obtain ⟨x, hx⟩ := h.alive (refs_pos_of_client hi)
      have hcount : s.table.counts c = some x.refCount := by
        rw [Table.counts, hx, Option.map_some]
      rw [hx, Option.map_some]
      refine ⟨_, rfl, ?_, h.queue, h.fifo, ?_⟩
      · have hrefs : ∀ d command, references s.table.clients s.queued s.worker (.received c command) d =
            s.refs d + one d (some c) := by
          intro d command
          have hepoll := refs_epoll s (.received c command) d
          rw [hwaiting, one_none] at hepoll
          exact hepoll
        have hacquire : Counted (Function.update s.table.counts c (some (x.refCount + 1)))
            fun d => references s.table.clients s.queued s.worker
              (.received c (cstr (bytes.take (maxPacketSize - 1)))) d + lost d := by
          refine h.counted.acquire hcount ?_ ?_
          · rw [hrefs, one_self]
            omega
          · intro d hdc
            rw [hrefs, one_of_ne hdc, Nat.add_zero]
        refine hacquire.congr ?_ fun _ => rfl
        exact map_update Connection.refCount s.table.mem c _
      · intro d hd
        cases hd
        exact ⟨i, hi⟩

/-- A reference that is held can be given back. -/
theorem PoolOk.drop (h : PoolOk lost s) (hc : 0 < s.refs c) (refs' : Ptr → Nat)
    (hrefs : ∀ d, refs' d + one d (some c) = s.refs d) :
    ∃ t, s.table.drop c = some t ∧ t.clients = s.table.clients ∧
      Counted t.counts fun d => refs' d + lost d := by
  obtain ⟨x, hx⟩ := h.alive hc
  rw [Table.drop, hx, Option.map_some]
  refine ⟨_, rfl, rfl, ?_⟩
  exact (h.release hx hrefs).congr (counts_dropped s.table c x) fun _ => rfl

/-- **`process_client_command`** puts its reference into the queue, or gives it
back. -/
theorem PoolOk.stepEpoll (h : PoolOk lost s) : ∃ s', s.stepEpoll = some s' ∧ PoolOk lost s' := by
  unfold Pool.stepEpoll
  split
  · exact ⟨s, rfl, h⟩
  · rename_i c command hphase
    have hclient : s.epoll.client = some c := by rw [hphase]; rfl
    split
    · obtain ⟨x, hx⟩ := h.alive (refs_pos_of_epoll hclient)
      rw [hx, Option.map_some]
      refine ⟨_, rfl, h.counted.congr rfl ?_, h.queue, h.fifo, ?_⟩
      · intro d
        have hsame := refs_epoll s (.refused c) d
        rw [hclient] at hsame
        exact congrArg (· + lost d) (Nat.add_right_cancel hsame)
      · intro d hd
        cases hd
        exact h.connected c hclient
    · rename_i hroom
      obtain ⟨hqueue, hcontents⟩ := h.queue.put hroom ⟨c, command⟩
      have hqueued : (s.queue.put ⟨c, command⟩).contents = s.queued ++ [⟨c, command⟩] := hcontents
      refine ⟨_, rfl, h.counted.congr rfl ?_, hqueue, ?_, ?_⟩
      · intro d
        have hsame := refs_put s ⟨c, command⟩ hclient d
        rw [← hqueued] at hsame
        exact congrArg (· + lost d) hsame
      · have hfifo : s.taken ++ (s.queue.put ⟨c, command⟩).contents =
            s.accepted ++ [⟨c, command⟩] := by
          rw [hqueued, ← List.append_assoc, h.fifo]
        exact hfifo
      · intro d hd
        cases hd
  · rename_i c hphase
    have hclient : s.epoll.client = some c := by rw [hphase]; rfl
    have hrefs : ∀ d, references s.table.clients s.queued s.worker .waiting d + one d (some c) =
        s.refs d := by
      intro d
      have hsame := refs_epoll s .waiting d
      rw [hclient] at hsame
      exact hsame
    obtain ⟨t, ht, hclients, hcounted⟩ := h.drop (refs_pos_of_epoll hclient) _ hrefs
    rw [ht, Option.map_some]
    refine ⟨_, rfl, hcounted.congr rfl ?_, h.queue, h.fifo, ?_⟩
    · intro d
      have hnow : Pool.refs { s with table := t, epoll := .waiting } d =
          references t.clients s.queued s.worker .waiting d := rfl
      rw [hnow, hclients]
    · intro d hd
      cases hd

/-- **A worker** takes a task over with its reference and gives that back at
the end, unless it passes over a task without a command. -/
theorem PoolOk.stepWorker (h : PoolOk lost s) (w : Fin workerThreads) :
    ∃ s' lost', s.stepWorker w = some s' ∧ PoolOk lost' s' ∧
      (HasCommand s (.worker w) → lost' = lost) := by
  unfold Pool.stepWorker
  split
  · rename_i hphase
    have hnone : (s.worker w).client = none := by rw [hphase]; rfl
    split
    · exact ⟨s, lost, rfl, h, fun _ => rfl⟩
    · rename_i hne
      obtain ⟨hqueue, hcontents⟩ := h.queue.take hne
      have hqueued : s.queued = s.queue.take.1 :: s.queue.take.2.contents := hcontents
      refine ⟨_, lost, rfl, ⟨h.counted.congr rfl ?_, hqueue, ?_, h.connected⟩, fun _ => rfl⟩
      · intro d
        exact congrArg (· + lost d) (refs_take s hqueued hnone d)
      · have hfifo : s.taken ++ [s.queue.take.1] ++ s.queue.take.2.contents = s.accepted := by
          rw [List.append_assoc, List.singleton_append, ← hqueued, h.fifo]
        exact hfifo
  · rename_i task hphase
    have hclient : (s.worker w).client = some task.c := by rw [hphase]; rfl
    obtain ⟨x, hx⟩ := h.alive (refs_pos_of_worker hclient)
    rw [hx, Option.map_some]
    split
    · -- `continue`: the worker forgets its reference
      rename_i hblank
      have hforget : ∀ d, references s.table.clients s.queued (Function.update s.worker w .waiting)
          s.epoll d + one d (some task.c) = s.refs d := by
        intro d
        have hsame := refs_worker s w .waiting d
        rw [hclient] at hsame
        exact hsame
      refine ⟨_, fun d => one d (some task.c) + lost d, rfl,
        ⟨h.counted.congr rfl ?_, h.queue, h.fifo, h.connected⟩, ?_⟩
      · intro d
        rw [← Nat.add_assoc]
        exact congrArg (· + lost d) (hforget d)
      · intro hcommand
        exact absurd hblank.2 (hcommand task x hphase hx hblank.1)
    · refine ⟨_, lost, rfl, ⟨h.counted.congr rfl ?_, h.queue, h.fifo, h.connected⟩, fun _ => rfl⟩
      intro d
      have hsame := refs_worker s w (.running task.c) d
      rw [hclient] at hsame
      exact congrArg (· + lost d) (Nat.add_right_cancel hsame)
  · rename_i c hphase
    have hclient : (s.worker w).client = some c := by rw [hphase]; rfl
    have hrefs : ∀ d, references s.table.clients s.queued (Function.update s.worker w .waiting)
        s.epoll d + one d (some c) = s.refs d := by
      intro d
      have hsame := refs_worker s w .waiting d
      rw [hclient] at hsame
      exact hsame
    obtain ⟨t, ht, hclients, hcounted⟩ := h.drop (refs_pos_of_worker hclient) _ hrefs
    rw [ht, Option.map_some]
    refine ⟨_, lost, rfl, ⟨hcounted.congr rfl ?_, h.queue, h.fifo, ?_⟩, fun _ => rfl⟩
    · intro d
      have hnow : Pool.refs { s with table := t, worker := Function.update s.worker w .waiting } d =
          references t.clients s.queued (Function.update s.worker w .waiting) s.epoll d := rfl
      rw [hnow, hclients]
    · intro d hd
      rw [hclients]
      exact h.connected d hd

/-- **One step** of any thread has an outcome and keeps the invariant; only a
task without a command loses a reference. -/
theorem PoolOk.step (h : PoolOk lost s) {op : PoolOp} (hfresh : PoolFresh s op) :
    ∃ s' lost', s.step op = some s' ∧ PoolOk lost' s' ∧ (HasCommand s op → lost' = lost) := by
  cases op with
  | accept fd malloc =>
      simp only [Pool.step]
      split
      · rename_i hphase
        have hwaiting : s.epoll.client = none := by rw [hphase]; rfl
        exact ⟨_, lost, rfl, h.accept hwaiting fd hfresh, fun _ => rfl⟩
      · exact ⟨s, lost, rfl, h, fun _ => rfl⟩
  | receive fd bytes =>
      simp only [Pool.step]
      split
      · rename_i hphase
        have hwaiting : s.epoll.client = none := by rw [hphase]; rfl
        obtain ⟨s', hs', hok⟩ := h.receive hwaiting fd bytes
        exact ⟨s', lost, hs', hok, fun _ => rfl⟩
      · exact ⟨s, lost, rfl, h, fun _ => rfl⟩
  | epoll =>
      obtain ⟨s', hs', hok⟩ := h.stepEpoll
      exact ⟨s', lost, hs', hok, fun _ => rfl⟩
  | worker w => exact h.stepWorker w

/-! ### What the pool promises -/

/-- Nothing refers to the client: not `clients[]`, no queued task, no worker. -/
structure Unreferenced (s : Pool) (c : Ptr) : Prop where
  table : ∀ i, s.table.clients i ≠ some c
  queued : ∀ task ∈ s.queued, task.c ≠ c
  working : ∀ w, (s.worker w).client ≠ some c

/-- The queue loses nothing and keeps its order and its bound, and an address
without a client is not referred to. -/
structure PoolSafe (s : Pool) : Prop where
  fifo : s.taken ++ s.queued = s.accepted
  count_le : s.queue.count ≤ maxQueuedTasks
  freed : ∀ c, s.table.mem c = none → Unreferenced s c

theorem PoolOk.safe (h : PoolOk lost s) : PoolSafe s where
  fifo := h.fifo
  count_le := h.queue.count
  freed := by
    intro c hfree
    have hnone : ¬ 0 < s.refs c := by
      intro hpos
      obtain ⟨x, hx⟩ := h.alive hpos
      rw [hfree] at hx
      cases hx
    refine ⟨?_, ?_, ?_⟩
    · exact fun i hi => hnone (refs_pos_of_client hi)
    · rintro task htask rfl
      exact hnone (refs_pos_of_queued htask)
    · exact fun w hw => hnone (refs_pos_of_worker hw)

/-- Every run has an outcome, with the references accounted for. -/
theorem poolRun_ok {ops : List PoolOp} (h : Along Pool.step PoolFresh Pool.start ops) :
    ∃ s, run Pool.step Pool.start ops = some s ∧ ∃ lost, PoolOk lost s := by
  refine run_invariant (I := fun s => ∃ lost, PoolOk lost s) ?_ ⟨_, PoolOk.start⟩ h
  rintro s op ⟨lost, hok⟩ hfresh
  obtain ⟨s', lost', hs', hok', _⟩ := hok.step hfresh
  exact ⟨s', hs', lost', hok'⟩

/-- **A client is freed once, and only when no task uses it.**  In every run of
the threads each step has an outcome, so no client is used or freed after it
was freed; the state is safe; and whatever step frees a client, nothing refers
to it then. -/
theorem clients_freed_safely (ops : List PoolOp) (h : Along Pool.step PoolFresh Pool.start ops) :
    ∃ s, run Pool.step Pool.start ops = some s ∧ PoolSafe s ∧
      ∀ op, PoolFresh s op → ∃ s', s.step op = some s' ∧
        ∀ c, s.table.mem c ≠ none → s'.table.mem c = none → Unreferenced s' c := by
  obtain ⟨s, hrun, lost, hok⟩ := poolRun_ok h
  refine ⟨s, hrun, hok.safe, ?_⟩
  intro op hfresh
  obtain ⟨s', lost', hs', hok', _⟩ := hok.step hfresh
  exact ⟨s', hs', fun c _ hfree => hok'.safe.freed c hfree⟩

instance (s : Pool) (c : Ptr) : Decidable (Unreferenced s c) :=
  decidable_of_iff ((∀ i, s.table.clients i ≠ some c) ∧ (∀ task ∈ s.queued, task.c ≠ c) ∧
      ∀ w, (s.worker w).client ≠ some c)
    ⟨fun h => ⟨h.1, h.2.1, h.2.2⟩, fun h => ⟨h.table, h.queued, h.working⟩⟩

def firstWorker : Fin workerThreads := ⟨0, by decide⟩

def secondWorker : Fin workerThreads := ⟨1, by decide⟩

/-- One command, whose client hangs up while a worker has the task. -/
def hangUpOps (command : Bytes) : List PoolOp :=
  [.accept 5 (some 1), .receive 5 command, .epoll, .worker firstWorker, .worker firstWorker,
    .receive 5 [], .worker firstWorker]

theorem hangUpOps_fresh (command : Bytes) :
    Along Pool.step PoolFresh Pool.start (hangUpOps command) := by
  refine ⟨fun c _ => rfl, fun _ _ => ⟨trivial, fun _ _ => ⟨trivial, fun _ _ => ⟨trivial, fun _ _ => ?_⟩⟩⟩⟩
  exact ⟨trivial, fun _ _ => ⟨trivial, fun _ _ => ⟨trivial, fun _ _ => trivial⟩⟩⟩

/-- The worker frees the client at the end of its task. -/
theorem hangUp_freed :
    (∃ s, run Pool.step Pool.start (hangUpOps (ascii "LIST")) = some s ∧ PoolSafe s ∧
      ∀ op, PoolFresh s op → ∃ s', s.step op = some s' ∧
        ∀ c, s.table.mem c ≠ none → s'.table.mem c = none → Unreferenced s' c) ∧
    ((run Pool.step Pool.start (hangUpOps (ascii "LIST"))).map fun s =>
      (s.taken.length, (s.table.mem 1).isNone)) = some (1, true) :=
  ⟨clients_freed_safely _ (hangUpOps_fresh _), by decide +kernel⟩

/-- **No client is leaked** in a run whose workers find a command in every task
of a connected client: a client that was disconnected and whose tasks are done
has been freed. -/
theorem clients_not_leaked (ops : List PoolOp)
    (h : Along Pool.step (fun s op => PoolFresh s op ∧ HasCommand s op) Pool.start ops) :
    ∃ s, run Pool.step Pool.start ops = some s ∧
      ∀ c, Unreferenced s c → s.table.mem c = none := by
  obtain ⟨s, hrun, hok⟩ := run_invariant (I := PoolOk fun _ => 0) (fun s op hok hop => by
      obtain ⟨s', lost', hs', hok', hsame⟩ := hok.step hop.1
      rw [hsame hop.2] at hok'
      exact ⟨s', hs', hok'⟩) PoolOk.start h
  refine ⟨s, hrun, ?_⟩
  intro c hc
  have hepoll : s.epoll.client ≠ some c := by
    intro hclient
    obtain ⟨i, hi⟩ := hok.connected c hclient
    exact hc.table i hi
  have hzero := refs_eq_zero hc.table hc.queued hc.working hepoll
  have hgone := hok.counted.gone (p := c) (by rw [hzero])
  exact Option.map_eq_none_iff.mp hgone

/-- The conditions of a step, computed. -/
def checkHasCommand (s : Pool) : PoolOp → Bool
  | .accept _ malloc => malloc.all fun c => (s.table.mem c).isNone
  | .worker w =>
      match s.worker w with
      | .took task => (splitCommand task.command).isSome
      | _ => true
  | _ => true

theorem hasCommand_of_check (s : Pool) (op : PoolOp) (h : checkHasCommand s op = true) :
    PoolFresh s op ∧ HasCommand s op := by
  cases op with
  | accept fd malloc =>
      refine ⟨?_, trivial⟩
      rintro c rfl
      simpa [checkHasCommand] using h
  | receive fd bytes => exact ⟨trivial, trivial⟩
  | epoll => exact ⟨trivial, trivial⟩
  | worker w =>
      refine ⟨trivial, ?_⟩
      intro task x htook _ _ hnone
      simp [checkHasCommand, htook, hnone] at h

theorem hangUp_not_leaked :
    ∃ s, run Pool.step Pool.start (hangUpOps (ascii "LIST")) = some s ∧
      ∀ c, Unreferenced s c → s.table.mem c = none :=
  clients_not_leaked _ (along_of_checkAlong hasCommand_of_check (by decide +kernel))

/-- A blank line is enough for a leak. -/
theorem blankCommand_leaks :
    ¬ ∀ ops, Along Pool.step PoolFresh Pool.start ops →
      ∃ s, run Pool.step Pool.start ops = some s ∧ ∀ c, Unreferenced s c → s.table.mem c = none := by
  intro hall
  obtain ⟨s, hrun, hfreed⟩ := hall (hangUpOps (ascii "\n")) (hangUpOps_fresh _)
  have hleak : ((run Pool.step Pool.start (hangUpOps (ascii "\n"))).map fun s =>
      decide (Unreferenced s 1) && (s.table.mem 1).isSome) = some true := by decide +kernel
  rw [hrun, Option.map_some, Option.some.injEq, Bool.and_eq_true, decide_eq_true_eq] at hleak
  rw [hfreed 1 hleak.1] at hleak
  cases hleak.2

end EchoLink
