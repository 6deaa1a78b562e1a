import EchoLink.TaskPool

/-!
# Command lines and the chunks of a TCP connection

`handle_tcp_command` takes what one `recv` returns for one command, and the
client sends its lines without a terminator: nothing marks where a line ends.
So a worker gets from each chunk one pair of a command and its arguments, or
nothing from a blank one, wherever the chunk begins and ends.

`commandText` is the part of a chunk that matters: without the delimiters
before the command, and without a single delimiter that ends the chunk right
behind it.  Two ways to cut the same bytes into chunks give the same commands
exactly when the chunks carry the same texts (`commands_eq_iff`).  The lines
that were sent are one of these ways, so the commands are the lines sent
exactly when the chunks carry the texts of the lines
(`commands_are_lines_iff`), as long as the workers look at the tasks of the
client in turn and while it is connected.
-/

namespace EchoLink

open CText Runs

/-! ### The text of a command -/

/-- A chunk without the delimiters before its command, and without a single
delimiter that ends it right behind the command; blank chunks have no text. -/
def commandText (chunk : Bytes) : Option Bytes :=
  let rest := (cstr chunk).dropWhile isDelimiter
  if rest = [] then none
  else
    let cmd := rest.takeWhile fun b => !isDelimiter b
    some (if rest.length = cmd.length + 1 then cmd else rest)

/-- The command and the arguments in a text. -/
def splitText (text : Bytes) : Bytes × Option Bytes :=
  let cmd := text.takeWhile fun b => !isDelimiter b
  let args := text.drop (cmd.length + 1)
  (cmd, if args = [] then none else some args)

/-- A command is split off at the first delimiter behind it. -/
theorem takeWhile_command {cmd tail : Bytes} (hcmd : ∀ b ∈ cmd, isDelimiter b = false)
    (htail : ∀ d xs, tail = d :: xs → isDelimiter d = true) :
    (cmd ++ tail).takeWhile (fun b => !isDelimiter b) = cmd := by
  have hall : ∀ b ∈ cmd, (!isDelimiter b) = true := by
    intro b hb
    rw [hcmd b hb]
    rfl
  rw [List.takeWhile_append_of_pos hall]
  cases tail with
  | nil => simp
  | cons d xs => simp [htail d xs rfl]

/-- What a chunk holds: nothing but delimiters, or a command with what is
behind it. -/
theorem chunk_cases (chunk : Bytes) :
    ((cstr chunk).dropWhile isDelimiter = [] ∧ splitCommand chunk = none ∧
      commandText chunk = none) ∨
    ∃ cmd tail, (cstr chunk).dropWhile isDelimiter = cmd ++ tail ∧ cmd ≠ [] ∧
      (∀ b ∈ cmd, isDelimiter b = false) ∧ (∀ d xs, tail = d :: xs → isDelimiter d = true) ∧
      splitCommand chunk = some (cmd, if tail.tail = [] then none else some tail.tail) ∧
      commandText chunk = some (if tail.length = 1 then cmd else cmd ++ tail) := by
  simp only [splitCommand, commandText]
  have hhead : ∀ b xs, (cstr chunk).dropWhile isDelimiter = b :: xs → isDelimiter b = false := by
    intro b xs hrest
    have hne : (cstr chunk).dropWhile isDelimiter ≠ [] := by rw [hrest]; exact List.cons_ne_nil b xs
    simpa [hrest] using List.head_dropWhile_not isDelimiter hne
  generalize (cstr chunk).dropWhile isDelimiter = rest at *
  cases rest with
  | nil => exact Or.inl ⟨rfl, rfl, rfl⟩
  | cons b xs =>
      refine Or.inr ?_
      obtain ⟨cmd, hcmd⟩ : ∃ cmd, (b :: xs).takeWhile (fun b => !isDelimiter b) = cmd := ⟨_, rfl⟩
      obtain ⟨tail, htail⟩ : ∃ tail, (b :: xs).dropWhile (fun b => !isDelimiter b) = tail := ⟨_, rfl⟩
      have hsplit : b :: xs = cmd ++ tail := by rw [← hcmd, ← htail, List.takeWhile_append_dropWhile]
      refine ⟨cmd, tail, hsplit, ?_, ?_, ?_, ?_, ?_⟩
      · rw [← hcmd, List.takeWhile_cons, hhead b xs rfl]
        exact List.cons_ne_nil _ _
      · intro d hd
        rw [← hcmd] at hd
        simpa using List.mem_takeWhile_imp hd
      · rintro d ys rfl
        have hne : (b :: xs).dropWhile (fun b => !isDelimiter b) ≠ [] := by
          rw [htail]
          exact List.cons_ne_nil d ys
        simpa [htail] using List.head_dropWhile_not (fun b => !isDelimiter b) hne
      · rw [if_neg (List.cons_ne_nil b xs), hcmd, hsplit, List.drop_append, Nat.add_sub_cancel_left,
          List.drop_eq_nil_of_le (Nat.le_succ _), List.nil_append, List.drop_one]
      · rw [if_neg (List.cons_ne_nil b xs), hcmd, hsplit, List.length_append]
        simp only [Nat.add_left_cancel_iff]

theorem splitCommand_eq (chunk : Bytes) :
    splitCommand chunk = (commandText chunk).map splitText := by
  rcases chunk_cases chunk with ⟨_, hcommand, htext⟩ |
    ⟨cmd, tail, _, _, hcmd, htail, hcommand, htext⟩
  · rw [hcommand, htext, Option.map_none]
  · rw [hcommand, htext, Option.map_some, Option.some.injEq]
    by_cases hone : tail.length = 1
    · have hnil : cmd.takeWhile (fun b => !isDelimiter b) = cmd := by
        simpa using takeWhile_command hcmd (fun d xs (htl : [] = d :: xs) => by cases htl)
      have htl : tail.tail = [] := by
        rw [← List.length_eq_zero_iff, List.length_tail, hone]
      rw [if_pos hone, if_pos htl, splitText, hnil, List.drop_eq_nil_of_le (Nat.le_succ _), if_pos rfl]
    · rw [if_neg hone, splitText, takeWhile_command hcmd htail, List.drop_append,
        Nat.add_sub_cancel_left, List.drop_eq_nil_of_le (Nat.le_succ _), List.nil_append, List.drop_one]

/-- The same texts give the same commands. -/
theorem commands_of_texts {as bs : List Bytes}
    (h : as.filterMap commandText = bs.filterMap commandText) :
    as.filterMap splitCommand = bs.filterMap splitCommand := by
  have hmap : ∀ cs : List Bytes,
      cs.filterMap splitCommand = (cs.filterMap commandText).map splitText := by
    intro cs
    rw [List.map_filterMap]
    congr 1
    funext chunk
    exact splitCommand_eq chunk
  rw [hmap, hmap, h]

/-! ### Two ways to cut a stream -/

theorem cstr_of_nul_free {bs : Bytes} (h : (0 : UInt8) ∉ bs) : cstr bs = bs := by
  refine List.takeWhile_eq_self_iff.mpr ?_
  intro b hb
  have hne : b ≠ 0 := fun h0 => h (h0 ▸ hb)
  simpa using hne

/-- The rest of a stream behind a blank chunk, or behind the delimiters of a
chunk with a command. -/
theorem dropWhile_chunk {chunk : Bytes} (rest : Bytes) :
    (chunk ++ rest).dropWhile isDelimiter =
      if chunk.dropWhile isDelimiter = [] then rest.dropWhile isDelimiter
      else chunk.dropWhile isDelimiter ++ rest := by
  rw [List.dropWhile_append]
  simp only [List.isEmpty_iff]

theorem dropWhile_delimiters {tail rest : Bytes} (h : ∀ b ∈ tail, isDelimiter b = true) :
    (tail ++ rest).dropWhile isDelimiter = rest.dropWhile isDelimiter := by
  have hnil : tail.dropWhile isDelimiter = [] := by simpa using h
  rw [dropWhile_chunk, if_pos hnil]

/-- The same command at the beginning of the same bytes, cut off in two ways:
the texts are the same, and so is what follows, up to delimiters. -/
theorem same_command {cmd tail tail' xs ys : Bytes}
    (htail : ∀ d zs, tail = d :: zs → isDelimiter d = true)
    (htail' : ∀ d zs, tail' = d :: zs → isDelimiter d = true)
    (hstream : cmd ++ tail ++ xs = cmd ++ tail' ++ ys)
    (hargs : (if tail.tail = [] then none else some tail.tail) =
      if tail'.tail = [] then none else some tail'.tail) :
    (if tail.length = 1 then cmd else cmd ++ tail) = (if tail'.length = 1 then cmd else cmd ++ tail') ∧
      xs.dropWhile isDelimiter = ys.dropWhile isDelimiter := by
  rw [List.append_assoc, List.append_assoc, List.append_cancel_left_eq] at hstream
  by_cases hnone : tail.tail = []
  · -- no arguments: behind the command there is at most one delimiter
    rw [if_pos hnone] at hargs
    have hnone' : tail'.tail = [] := by
      by_contra hne
      rw [if_neg hne] at hargs
      cases hargs
    have hshort : ∀ zs : Bytes, zs.tail = [] → (∀ d ws, zs = d :: ws → isDelimiter d = true) →
        (if zs.length = 1 then cmd else cmd ++ zs) = cmd ∧ ∀ b ∈ zs, isDelimiter b = true := by
      intro zs hzs hdelim
      cases zs with
      | nil => simp
      | cons d ws =>
          rw [List.tail_cons] at hzs
          subst hzs
          exact ⟨if_pos rfl, by simpa using hdelim d [] rfl⟩
    obtain ⟨htext, hdelims⟩ := hshort tail hnone htail
    obtain ⟨htext', hdelims'⟩ := hshort tail' hnone' htail'
    refine ⟨by rw [htext, htext'], ?_⟩
    rw [← dropWhile_delimiters hdelims, hstream, dropWhile_delimiters hdelims']
  · -- arguments: the two tails have the same length
    rw [if_neg hnone] at hargs
    have hsame : tail'.tail = tail.tail := by
      by_cases hnone' : tail'.tail = []
      · rw [if_pos hnone'] at hargs
        cases hargs
      · rw [if_neg hnone', Option.some.injEq] at hargs
        exact hargs.symm
    cases tail with
    | nil => exact absurd rfl hnone
    | cons d zs =>
        cases tail' with
        | nil =>
            rw [List.tail_nil, List.tail_cons] at hsame
            exact absurd hsame.symm hnone
        | cons d' zs' =>
            rw [List.tail_cons, List.tail_cons] at hsame
            subst hsame
            simp only [List.cons_append, List.cons.injEq, List.append_cancel_left_eq] at hstream
            obtain ⟨rfl, rfl⟩ := hstream
            exact ⟨rfl, rfl⟩

/-- The same commands from the same bytes have the same texts. -/
theorem texts_of_commands {as bs : List Bytes} (ha : (0 : UInt8) ∉ as.flatten)
    (hb : (0 : UInt8) ∉ bs.flatten)
    (hstream : as.flatten.dropWhile isDelimiter = bs.flatten.dropWhile isDelimiter)
    (h : as.filterMap splitCommand = bs.filterMap splitCommand) :
    as.filterMap commandText = bs.filterMap commandText := by
  -- blank chunks are passed over on both sides until both begin with a command
  induction as generalizing bs with
  | nil =>
      have hnone : ∀ cs : List Bytes, cs.filterMap splitCommand = [] → cs.filterMap commandText = [] := by
        intro cs hcs
        rw [List.filterMap_eq_nil_iff] at hcs ⊢
        intro chunk hchunk
        have hsplit := hcs chunk hchunk
        rw [splitCommand_eq, Option.map_eq_none_iff] at hsplit
        exact hsplit
      rw [List.filterMap_nil] at h ⊢
      exact (hnone bs h.symm).symm
  | cons a as ih =>
      rw [List.flatten_cons, List.mem_append, not_or] at ha
      have hcstr := cstr_of_nul_free ha.1
      rcases chunk_cases a with ⟨hblank, hcommand, htext⟩ |
        ⟨cmd, tail, hrest, hne, _, htail, hcommand, htext⟩
      · rw [hcstr] at hblank
        rw [List.flatten_cons, dropWhile_chunk, if_pos hblank] at hstream
        rw [List.filterMap_cons_none hcommand] at h
        rw [List.filterMap_cons_none htext]
        exact ih ha.2 hb hstream h
      · rw [hcstr] at hrest
        have hnonblank : a.dropWhile isDelimiter ≠ [] := by simp [hrest, hne]
        rw [List.flatten_cons, dropWhile_chunk, if_neg hnonblank, hrest] at hstream
        rw [List.filterMap_cons_some hcommand] at h
        rw [List.filterMap_cons_some htext]
        induction bs with
        | nil => simp at h
        | cons b bs ihb =>
            rw [List.flatten_cons, List.mem_append, not_or] at hb
            have hcstr' := cstr_of_nul_free hb.1
            rcases chunk_cases b with ⟨hblank, hcommand', htext'⟩ |
              ⟨cmd', tail', hrest', hne', _, htail', hcommand', htext'⟩
            · rw [hcstr'] at hblank
              rw [List.flatten_cons, dropWhile_chunk, if_pos hblank] at hstream
              rw [List.filterMap_cons_none hcommand'] at h
              rw [List.filterMap_cons_none htext']
              exact ihb hb.2 h hstream
            · rw [hcstr'] at hrest'
              have hnonblank' : b.dropWhile isDelimiter ≠ [] := by simp [hrest', hne']
              rw [List.flatten_cons, dropWhile_chunk, if_neg hnonblank', hrest'] at hstream
              rw [List.filterMap_cons_some hcommand', List.cons.injEq, Prod.mk.injEq] at h
              obtain ⟨⟨rfl, hargs⟩, hcommands⟩ := h
              obtain ⟨htexts, hbehind⟩ := same_command htail htail' hstream hargs
              rw [List.filterMap_cons_some htext', htexts, ih ha.2 hb.2 hbehind hcommands]

/-- **Two ways to cut a stream** give the same commands exactly when their
chunks carry the same texts. -/
theorem commands_eq_iff {as bs : List Bytes} (hnul : (0 : UInt8) ∉ as.flatten)
    (hstream : as.flatten = bs.flatten) :
    as.filterMap splitCommand = bs.filterMap splitCommand ↔
      as.filterMap commandText = bs.filterMap commandText := by
  constructor
  · exact texts_of_commands hnul (hstream ▸ hnul) (by rw [hstream])
  · exact commands_of_texts

/-! ### The commands of a client -/

/-- The chunks received for a client and queued. -/
def Pool.chunksOf (s : Pool) (c : Ptr) : List Bytes :=
  (s.accepted.filter fun task => task.c = c).map Task.command

/-- The command that a step dispatches for a client: the worker has a task of
the client, and finds the client active and a command in the task. -/
def Pool.dispatch (c : Ptr) (s : Pool) : PoolOp → List (Bytes × Option Bytes)
  | .worker w =>
      match s.worker w with
      | .took task =>
          if task.c = c then
            match s.table.mem c with
            | some x => if x.isActive = true then (splitCommand task.command).toList else []
            | none => []
          else []
      | _ => []
  | _ => []

/-- The commands dispatched for a client, in order. -/
def dispatchedFor (c : Ptr) (ops : List PoolOp) : List (Bytes × Option Bytes) :=
  outputs Pool.step (Pool.dispatch c) Pool.start ops

/-- The task of the client that a worker has not looked at yet. -/
def WorkerPhase.inHand (c : Ptr) : WorkerPhase → Option Task
  | .took task => if task.c = c then some task else none
  | _ => none

/-- The workers look at the tasks of the client in turn, none takes one while
another has one in hand, and they find the client active. -/
def InTurn (c : Ptr) (s : Pool) : PoolOp → Prop
  | .worker w =>
      (s.worker w = .waiting → s.queue.take.1.c = c → ∀ v, (s.worker v).inHand c = none) ∧
      ((s.worker w).inHand c ≠ none → ∀ x, s.table.mem c = some x → x.isActive = true)
  | _ => True

/-- The commands in the tasks of a client that have been taken. -/
def Pool.takenFor (s : Pool) (c : Ptr) : List (Bytes × Option Bytes) :=
  (s.taken.filter fun task => task.c = c).filterMap fun task => splitCommand task.command

/-- What has been dispatched is what has been taken, less the one task that a
worker has in hand. -/
inductive Dispatched (c : Ptr) (s : Pool) (log : List (Bytes × Option Bytes)) : Prop
  | none (hnone : ∀ w, (s.worker w).inHand c = none) (hlog : log = s.takenFor c)
  | one (v : Fin workerThreads) (task : Task) (hone : (s.worker v).inHand c = some task)
      (hothers : ∀ w, w ≠ v → (s.worker w).inHand c = none)
      (hlog : log ++ (splitCommand task.command).toList = s.takenFor c)

variable {s s' : Pool} {c : Ptr} {log : List (Bytes × Option Bytes)}

theorem inHand_update (worker : Fin workerThreads → WorkerPhase) (v : Fin workerThreads)
    (ph : WorkerPhase) (w : Fin workerThreads) :
    (Function.update worker v ph w).inHand c =
      Function.update (fun w => (worker w).inHand c) v (ph.inHand c) w := by
  by_cases hw : w = v
  · subst hw
    rw [Function.update_self, Function.update_self]
  · rw [Function.update_of_ne hw, Function.update_of_ne hw]

/-- Nothing that concerns the client happens. -/
theorem Dispatched.same (h : Dispatched c s log) (hhand : ∀ w, (s'.worker w).inHand c = (s.worker w).inHand c)
    (htaken : s'.takenFor c = s.takenFor c) : Dispatched c s' log := by
  cases h with
  | none hnone hlog => exact .none (fun w => by rw [hhand, hnone]) (by rw [htaken, hlog])
  | one v task hone hothers hlog =>
      exact .one v task (by rw [hhand, hone]) (fun w hw => by rw [hhand, hothers w hw]) (by rw [htaken, hlog])

/-- A worker moves on without a task of the client. -/
theorem Dispatched.moved (h : Dispatched c s log) {w : Fin workerThreads} {ph : WorkerPhase}
    (hworker : s'.worker = Function.update s.worker w ph)
    (hph : ph.inHand c = (s.worker w).inHand c) (htaken : s'.takenFor c = s.takenFor c) :
    Dispatched c s' log := by
  refine h.same ?_ htaken
  intro v
  rw [hworker, inHand_update, hph, Function.update_eq_self]

/-- A worker takes a task of the client while no other has one in hand. -/
theorem Dispatched.took (h : Dispatched c s log) (hnone : ∀ v, (s.worker v).inHand c = Option.none)
    {w : Fin workerThreads} {task : Task} (hc : task.c = c)
    (hworker : s'.worker = Function.update s.worker w (.took task)) (htaken : s'.taken = s.taken ++ [task]) :
    Dispatched c s' log := by
  have hlog : log = s.takenFor c := by
    cases h with
    | none _ hlog => exact hlog
    | one v task' hone _ _ =>
        rw [hnone v] at hone
        cases hone
  have hhand : (WorkerPhase.took task).inHand c = some task := if_pos hc
  refine .one w task ?_ ?_ ?_
  · rw [hworker, inHand_update, hhand, Function.update_self]
  · intro v hv
    rw [hworker, inHand_update, Function.update_of_ne hv, hnone v]
  · have hlast : [task].filter (fun task => task.c = c) = [task] := by
      rw [List.filter_singleton, decide_eq_true hc]
      rfl
    rw [hlog, Pool.takenFor, Pool.takenFor, htaken, List.filter_append, hlast, List.filterMap_append]
    congr 1

/-- The worker with the client's task in hand looks at it, and the command is
dispatched. -/
theorem Dispatched.looked (h : Dispatched c s log) {w : Fin workerThreads} {task : Task} {ph : WorkerPhase}
    (hhand : (s.worker w).inHand c = some task) (hworker : s'.worker = Function.update s.worker w ph)
    (hph : ph.inHand c = Option.none) (htaken : s'.taken = s.taken) :
    Dispatched c s' (log ++ (splitCommand task.command).toList) := by
  cases h with
  | none hnone _ =>
      rw [hnone w] at hhand
      cases hhand
  | one v task' hone hothers hlog =>
      have hv : w = v := by
        by_contra hv
        rw [hothers w hv] at hhand
        cases hhand
      subst hv
      rw [hhand, Option.some.injEq] at hone
      subst hone
      refine .none ?_ (by rw [hlog, Pool.takenFor, Pool.takenFor, htaken])
      intro u
      rw [hworker, inHand_update, hph]
      by_cases hu : u = w
      · subst hu
        rw [Function.update_self]
      · rw [Function.update_of_ne hu, hothers u hu]

/-- A step of a worker. -/
theorem Dispatched.stepWorker (h : Dispatched c s log) {w : Fin workerThreads} (hturn : InTurn c s (.worker w))
    (hs' : s.stepWorker w = some s') : Dispatched c s' (log ++ s.dispatch c (.worker w)) := by
  unfold Pool.stepWorker at hs'
  cases hw : s.worker w with
  | waiting =>
      have hquiet : s.dispatch c (.worker w) = [] := by simp only [Pool.dispatch, hw]
      rw [hquiet, List.append_nil]
      simp only [hw] at hs'
      split at hs'
      · cases hs'
        exact h
      · cases hs'
        by_cases hc : s.queue.take.1.c = c
        · exact h.took (hturn.1 hw hc) hc rfl rfl
        · refine h.moved rfl (by rw [hw]; exact if_neg hc) ?_
          simp only [Pool.takenFor, List.filter_append, List.filter_cons, hc, decide_false,
            List.filter_nil, Bool.false_eq_true, if_false, List.append_nil]
  | took task =>
      simp only [hw] at hs'
      obtain ⟨x, hx, hs'⟩ := Option.map_eq_some_iff.mp hs'
      have hdone : ∃ ph, ph.inHand c = Option.none ∧
          { s with worker := Function.update s.worker w ph } = s' := by
        split at hs'
        · exact ⟨_, rfl, hs'⟩
        · exact ⟨_, rfl, hs'⟩
      obtain ⟨ph, hph, rfl⟩ := hdone
      by_cases hc : task.c = c
      · have hhand : (s.worker w).inHand c = some task := by
          rw [hw]
          exact if_pos hc
        have hactive := hturn.2 (by rw [hhand]; exact Option.some_ne_none task) x (by rw [← hc]; exact hx)
        have hdispatch : s.dispatch c (.worker w) = (splitCommand task.command).toList := by
          rw [hc] at hx
          simp only [Pool.dispatch, hw, if_pos hc, hx, if_pos hactive]
        rw [hdispatch]
        exact h.looked hhand rfl hph rfl
      · have hquiet : s.dispatch c (.worker w) = [] := by
          simp only [Pool.dispatch, hw, if_neg hc]
        rw [hquiet, List.append_nil]
        refine h.moved rfl ?_ rfl
        rw [hph, hw]
        exact (if_neg hc).symm
  | running d =>
      have hquiet : s.dispatch c (.worker w) = [] := by simp only [Pool.dispatch, hw]
      rw [hquiet, List.append_nil]
      simp only [hw] at hs'
      obtain ⟨t, _, rfl⟩ := Option.map_eq_some_iff.mp hs'
      exact h.moved rfl (by rw [hw]; rfl) rfl

/-- The epoll thread takes no task and dispatches none. -/
theorem Dispatched.step (h : Dispatched c s log) {op : PoolOp} (hturn : InTurn c s op)
    (hs' : s.step op = some s') : Dispatched c s' (log ++ s.dispatch c op) := by
  have hquiet : s'.worker = s.worker → s'.taken = s.taken → Dispatched c s' (log ++ []) := by
    intro hworker htaken
    rw [List.append_nil]
    exact h.same (fun w => by rw [hworker]) (by rw [Pool.takenFor, Pool.takenFor, htaken])
  cases op with
  | worker w => exact h.stepWorker hturn hs'
  | accept fd malloc =>
      simp only [Pool.step] at hs'
      split at hs'
      · cases hs'
        exact hquiet rfl rfl
      · cases hs'
        exact hquiet rfl rfl
  | receive fd bytes =>
      simp only [Pool.step, Pool.receive] at hs'
      split at hs'
      · split at hs'
        · obtain ⟨t, _, rfl⟩ := Option.map_eq_some_iff.mp hs'
          exact hquiet rfl rfl
        · split at hs'
          · cases hs'
            exact hquiet rfl rfl
          · obtain ⟨x, _, rfl⟩ := Option.map_eq_some_iff.mp hs'
            exact hquiet rfl rfl
      · cases hs'
        exact hquiet rfl rfl
  | epoll =>
      simp only [Pool.step, Pool.stepEpoll] at hs'
      split at hs'
      · cases hs'
        exact hquiet rfl rfl
      · split at hs'
        · obtain ⟨x, _, rfl⟩ := Option.map_eq_some_iff.mp hs'
          exact hquiet rfl rfl
        · cases hs'
          exact hquiet rfl rfl
      · obtain ⟨t, _, rfl⟩ := Option.map_eq_some_iff.mp hs'
        exact hquiet rfl rfl

/-- The run, with the client's tasks looked at in turn. -/
def RunFor (c : Ptr) (ops : List PoolOp) : Prop :=
  Along Pool.step (fun s op => PoolFresh s op ∧ InTurn c s op) Pool.start ops

/-- No task of the client is left. -/
def Pool.done (s : Pool) (c : Ptr) : Prop :=
  (∀ task ∈ s.queued, task.c ≠ c) ∧ ∀ w, (s.worker w).inHand c = none

/-- When no task of the client is left, the commands dispatched for it are those
of its chunks. -/
theorem dispatchedFor_eq {ops : List PoolOp} (h : RunFor c ops) :
    ∃ s, run Pool.step Pool.start ops = some s ∧
      (s.done c → dispatchedFor c ops = (s.chunksOf c).filterMap splitCommand) := by
  obtain ⟨s, hrun, ⟨lost, hok⟩, hdispatched⟩ := outputs_invariant []
    (J := fun s log => (∃ lost, PoolOk lost s) ∧ Dispatched c s log) (by
      rintro s op log ⟨⟨lost, hok⟩, hdispatched⟩ ⟨hfresh, hturn⟩
      obtain ⟨s', lost', hs', hok', _⟩ := hok.step hfresh
      exact ⟨s', hs', ⟨lost', hok'⟩, hdispatched.step hturn hs'⟩)
    ⟨⟨_, PoolOk.start⟩, .none (fun w => rfl) rfl⟩ h
  refine ⟨s, hrun, ?_⟩
  rintro ⟨hqueued, hhands⟩
  have hnone : s.queued.filter (fun task => task.c = c) = [] := by
    rw [List.filter_eq_nil_iff]
    intro task htask
    simpa using hqueued task htask
  have hlog : dispatchedFor c ops = s.takenFor c := by
    cases hdispatched with
    | none _ hlog => exact hlog
    | one v task hone _ _ =>
        rw [hhands v] at hone
        cases hone
  rw [hlog, Pool.takenFor, Pool.chunksOf, ← hok.fifo, List.filter_append, hnone, List.append_nil,
    List.filterMap_map]
  rfl

/-- **When the commands are the lines sent.**  In any run of the threads, take
a client whose tasks have all been looked at, in turn and while it was
connected, and lines whose bytes are what was received from it.  The commands
dispatched for it are those of the lines exactly when the chunks carry the
texts of the lines; and in any two such runs the commands are the same exactly
when the chunks carry the same texts. -/
theorem commands_are_lines_iff (c : Ptr) (ops : List PoolOp) (h : RunFor c ops) :
    ∃ s, run Pool.step Pool.start ops = some s ∧
      (s.done c → ∀ lines : List Bytes, (0 : UInt8) ∉ lines.flatten →
        (s.chunksOf c).flatten = lines.flatten →
        (dispatchedFor c ops = lines.filterMap splitCommand ↔
          (s.chunksOf c).filterMap commandText = lines.filterMap commandText) ∧
        ∀ c' ops', RunFor c' ops' → ∀ s', run Pool.step Pool.start ops' = some s' → s'.done c' →
          (s'.chunksOf c').flatten = lines.flatten →
          (dispatchedFor c ops = dispatchedFor c' ops' ↔
            (s.chunksOf c).filterMap commandText = (s'.chunksOf c').filterMap commandText)) := by
  obtain ⟨s, hrun, hcommands⟩ := dispatchedFor_eq h
  refine ⟨s, hrun, ?_⟩
  intro hdone lines hnul hstream
  rw [hcommands hdone]
  have hnul' : (0 : UInt8) ∉ (s.chunksOf c).flatten := by rwa [hstream]
  refine ⟨commands_eq_iff hnul' hstream, ?_⟩
  intro c' ops' h' s' hrun' hdone' hstream'
  obtain ⟨s'', hrun'', hcommands'⟩ := dispatchedFor_eq h'
  rw [hrun', Option.some.injEq] at hrun''
  subst hrun''
  rw [hcommands' hdone']
  exact commands_eq_iff hnul' (hstream.trans hstream'.symm)

/-! ### Two runs -/

/-- A client sends two chunks, and a worker takes one after the other. -/
def twoChunks (first second : Bytes) : List PoolOp :=
  [.accept 5 (some 1), .receive 5 first, .epoll, .receive 5 second, .epoll, .worker firstWorker,
    .worker firstWorker, .worker firstWorker, .worker firstWorker, .worker firstWorker]

/-- The conditions of a step, computed. -/
def checkInTurn (c : Ptr) (s : Pool) : PoolOp → Bool
  | .accept _ malloc => malloc.all fun d => (s.table.mem d).isNone
  | .worker w =>
      (s.worker w).inHand c = none && (List.finRange workerThreads).all (fun v => (s.worker v).inHand c = none) ||
        (s.worker w).inHand c ≠ none && (s.table.mem c).all fun x => x.isActive
  | _ => true

theorem inTurn_of_check (c : Ptr) (s : Pool) (op : PoolOp) (h : checkInTurn c s op = true) :
    PoolFresh s op ∧ InTurn c s op := by
  cases op with
  | accept fd malloc =>
      refine ⟨?_, trivial⟩
      rintro d rfl
      simpa [checkInTurn] using h
  | receive fd bytes => exact ⟨trivial, trivial⟩
  | epoll => exact ⟨trivial, trivial⟩
  | worker w =>
      refine ⟨trivial, ?_, ?_⟩
      · intro hw _ v
        have hnone : (s.worker w).inHand c = none := by rw [hw]; rfl
        simp only [checkInTurn, hnone, decide_true, Bool.true_and, ne_eq, not_true_eq_false, decide_false,
          Bool.false_and, Bool.or_false, List.all_eq_true, decide_eq_true_eq] at h
        exact h v (List.mem_finRange v)
      · intro hhand x hx
        simp only [checkInTurn, hhand, decide_false, Bool.false_and, Bool.false_or, ne_eq, not_false_eq_true,
          decide_true, Bool.true_and, hx, Option.all_some] at h
        exact h

/-- Two lines in two chunks, with the end of the first line in the second chunk. -/
theorem commands_are_lines_twice :
    dispatchedFor 1 (twoChunks (ascii "LIST") (ascii "\nJOIN lobby")) =
      [ascii "LIST\n", ascii "JOIN lobby"].filterMap splitCommand := by
  have hcheck : checkAlong Pool.step (checkInTurn 1) Pool.start
      (twoChunks (ascii "LIST") (ascii "\nJOIN lobby")) = true := by decide +kernel
  obtain ⟨s, hrun, hiff⟩ := commands_are_lines_iff 1 _ (along_of_checkAlong (inTurn_of_check 1) hcheck)
  have hstate : (run Pool.step Pool.start (twoChunks (ascii "LIST") (ascii "\nJOIN lobby"))).map
      (fun s => (s.queued, s.chunksOf 1)) = some ([], [ascii "LIST", ascii "\nJOIN lobby"]) := by
    decide +kernel
  have hhands : (run Pool.step Pool.start (twoChunks (ascii "LIST") (ascii "\nJOIN lobby"))).map
      (fun s => (List.finRange workerThreads).all fun w => (s.worker w).inHand 1 = none) = some true := by
    decide +kernel
  rw [hrun, Option.map_some, Option.some.injEq] at hstate hhands
  obtain ⟨hqueue, hchunks⟩ := Prod.mk.inj hstate
  have hdone : s.done 1 :=
    ⟨by simp [hqueue], fun w => by simpa using List.all_eq_true.mp hhands w (List.mem_finRange w)⟩
  refine (hiff hdone [ascii "LIST\n", ascii "JOIN lobby"] (by decide) (by rw [hchunks]; decide)).1.mpr ?_
  rw [hchunks]
  decide

/-- The line `LIST` in two chunks is two other commands. -/
theorem split_line_not_dispatched :
    ¬ ∀ c ops, RunFor c ops → ∀ s, run Pool.step Pool.start ops = some s → s.done c →
      ∀ lines : List Bytes, (0 : UInt8) ∉ lines.flatten → (s.chunksOf c).flatten = lines.flatten →
        dispatchedFor c ops = lines.filterMap splitCommand := by
  intro hall
  have hcheck : checkAlong Pool.step (checkInTurn 1) Pool.start (twoChunks (ascii "LI") (ascii "ST")) =
      true := by decide +kernel
  have hstate : (run Pool.step Pool.start (twoChunks (ascii "LI") (ascii "ST"))).map
      (fun s => (s.queued, s.chunksOf 1)) = some ([], [ascii "LI", ascii "ST"]) := by
    decide +kernel
  have hhands : (run Pool.step Pool.start (twoChunks (ascii "LI") (ascii "ST"))).map
      (fun s => (List.finRange workerThreads).all fun w => (s.worker w).inHand 1 = none) = some true := by
    decide +kernel
  have hfound : dispatchedFor 1 (twoChunks (ascii "LI") (ascii "ST")) =
      [(ascii "LI", none), (ascii "ST", none)] := by decide +kernel
  obtain ⟨s, hrun, heq⟩ := Option.map_eq_some_iff.mp hstate
  obtain ⟨hqueue, hchunks⟩ := Prod.mk.inj heq
  rw [hrun, Option.map_some, Option.some.injEq] at hhands
  have hdone : s.done 1 :=
    ⟨by simp [hqueue], fun w => by simpa using List.all_eq_true.mp hhands w (List.mem_finRange w)⟩
  have hlines := hall 1 _ (along_of_checkAlong (inTurn_of_check 1) hcheck) s hrun hdone [ascii "LIST"]
    (by decide) (by rw [hchunks]; decide)
  rw [hfound] at hlines
  revert hlines
  decide +kernel

end EchoLink
