import EchoLink.WalCrash
import EchoLink.Runs

/-!
# Calls of `db_write_room` at the same time

Worker threads and the epoll thread append to one log without a lock.  Each
call here is on its own room id, a call is advanced one system call at a time
(`advance`), and a schedule is any list of ids.  A crash may fall after any
schedule.

Recovery takes a transaction to end at the next `BEGIN`, whoever wrote it.  A
`COMMIT` that comes after another call's `BEGIN` is therefore not found, and
the committed write is undone (`interleavedCommit_undone`).  The schedules in
which every `OLD` and every `COMMIT` line is written while its own `BEGIN` is
the last one in the log are recovered correctly, after every prefix
(`interleaved_recovered`).
-/

namespace EchoLink

open CText RecordFile UndoLog Runs

/-- How far the call on one room id has come. -/
inductive Phase where
  | idle
  | read
  | begun
  | oldLogged
  | newLogged
  | stored
  | done
  deriving DecidableEq

/-- The calls that run: their files, the phase of each, the record each has
read, and the call that logged the last `BEGIN`. -/
structure Writers where
  db : FileDb
  phase : Nat → Phase
  old : Nat → Option RoomRecord
  latest : Option Nat

def Writers.start (db : FileDb) : Writers :=
  { db, phase := fun _ => .idle, old := fun _ => none, latest := none }

variable (new : Nat → RoomRecord)

/-- The next system call of `db_write_room(id, new id)`. -/
def advance (s : Writers) (id : Nat) : Writers :=
  match s.phase id with
  | .idle =>
      { s with
        db := (dbReadRoomRaw s.db id).2
        phase := Function.update s.phase id .read
        old := Function.update s.old id (dbReadRoomRaw s.db id).1 }
  | .read =>
      { s with
        db := walWrite s.db (beginLine id)
        phase := Function.update s.phase id .begun
        latest := some id }
  | .begun =>
      { s with
        db := walWrite s.db (oldLine (s.old id))
        phase := Function.update s.phase id .oldLogged }
  | .oldLogged =>
      { s with
        db := walWrite s.db (newLine (new id))
        phase := Function.update s.phase id .newLogged }
  | .newLogged =>
      { s with
        db := storeRoom roomRecordSize s.db id (new id)
        phase := Function.update s.phase id .stored }
  | .stored =>
      { s with
        db := walWrite s.db (commitLine id)
        phase := Function.update s.phase id .done }
  | .done => s

/-- Run a schedule. -/
def schedule (s : Writers) (ids : List Nat) : Writers := ids.foldl (advance new) s

/-- A call starts as its callers start it. -/
def StartsCallable (s : Writers) (id : Nat) : Prop :=
  s.phase id = .idle → Callable s.db id (new id)

/-- An `OLD` or `COMMIT` line is written while its own `BEGIN` is the last. -/
def Undisturbed (s : Writers) (id : Nat) : Prop :=
  s.phase id = .begun ∨ s.phase id = .stored → s.latest = some id

instance (s : Writers) (id : Nat) : Decidable (Undisturbed s id) :=
  inferInstanceAs (Decidable (s.phase id = .begun ∨ s.phase id = .stored → s.latest = some id))

/-- A step of a schedule never gets stuck. -/
def advances (s : Writers) (id : Nat) : Option Writers := some (advance new s id)

/-- After a crash and a restart each id has its new record if its `COMMIT`
line is in the log and keeps its old one otherwise. -/
def Recovered (db : FileDb) (s : Writers) (junk : Nat → Int) : Prop :=
  ∀ id,
    if s.phase id = .done then
      ((restart junk s.db).recordAt id).map RoomRecord.view = some (new id).view
    else Kept (db.recordAt id) ((restart junk s.db).recordAt id)

/-! ### The invariant -/

/-- The lines read as the events, whatever uninitialised variables hold. -/
def ReadsAs (ls : List Bytes) (es : List (Event Int RoomRecord)) : Prop :=
  ∀ junk i, lineEvents junk i ls = es

theorem ReadsAs.snoc {ls : List Bytes} {es : List (Event Int RoomRecord)} {l : Bytes}
    {e : Event Int RoomRecord} (h : ReadsAs ls es) (hl : ∀ junk, lineEvent junk l = e) :
    ReadsAs (ls ++ [l]) (es ++ [e]) := by
  intro junk i
  rw [lineEvents_append, h junk i]
  simp [lineEvents, hl]

/-- Whether the `BEGIN` line of a call is in the log. -/
def Phase.logged : Phase → Bool
  | .idle => false
  | .read => false
  | _ => true

/-- Whether the `OLD` line of a call is in the log. -/
def Phase.imaged : Phase → Bool
  | .idle => false
  | .read => false
  | .begun => false
  | _ => true

/-- Whether the record write of a call was made. -/
def Phase.written : Phase → Bool
  | .stored => true
  | .done => true
  | _ => false

/-- What holds of one call at every moment of an undisturbed schedule. -/
structure CallOk (db : FileDb) (s : Writers) (es : List (Event Int RoomRecord)) (id : Nat) :
    Prop where
  begun : (id : Int) ∈ begins es ↔ (s.phase id).logged = true
  finished : finished (id : Int) (stretch (id : Int) es) = decide (s.phase id = .done)
  image : before (stretch (id : Int) es) =
    if (s.phase id).imaged then some (restoredRecord (oldLine (db.recordAt id))) else none
  started : s.phase id ≠ .idle →
    s.old id = db.recordAt id ∧ id * roomRecordSize ≤ s.db.rooms.data.length ∧
      OneLine (new id) ∧ ∀ r, db.recordAt id = some r → ReadsBack r
  slotOk : slot roomRecordSize s.db.rooms.data id =
    if (s.phase id).written then some (new id).encode else slot roomRecordSize db.rooms.data id

/-- What holds at every moment of an undisturbed schedule. -/
structure WritersOk (db : FileDb) (s : Writers) (ls : List Bytes)
    (es : List (Event Int RoomRecord)) : Prop where
  log : LogHolds s.db.wal ls
  reads : ReadsAs ls es
  keys : ∀ i ∈ begins es, ∃ id : Nat, i = id
  once : (begins es).Nodup
  latest : current es = s.latest.map fun id => (id : Int)
  call : ∀ id, CallOk new db s es id

theorem WritersOk.start {db : FileDb} (hlog : db.wal = { data := [], pos := 0 }) :
    WritersOk new db (Writers.start db) [] [] where
  log := hlog ▸ LogHolds.empty
  reads := fun _ _ => rfl
  keys := by simp [begins]
  once := by simp [begins]
  latest := rfl
  call := fun id =>
    { begun := by simp [begins, Writers.start, Phase.logged]
      finished := by simp [stretch, UndoLog.finished, Writers.start]
      image := by simp [stretch, before, Writers.start, Phase.imaged]
      started := fun h => absurd rfl h
      slotOk := by simp [Writers.start, Phase.written] }

/-! ### One step -/

variable {new} {db : FileDb} {s : Writers} {ls : List Bytes} {es : List (Event Int RoomRecord)}
  {id : Nat}

/-- A step of another call leaves a call alone. -/
theorem CallOk.congr {s' : Writers} {es' : List (Event Int RoomRecord)} {j : Nat}
    (h : CallOk new db s es j) (hphase : s'.phase j = s.phase j) (hold : s'.old j = s.old j)
    (hlen : s.db.rooms.data.length ≤ s'.db.rooms.data.length)
    (hslot : slot roomRecordSize s'.db.rooms.data j = slot roomRecordSize s.db.rooms.data j)
    (hbegins : (j : Int) ∈ begins es' ↔ (j : Int) ∈ begins es)
    (hfin : UndoLog.finished (j : Int) (stretch (j : Int) es') =
      UndoLog.finished (j : Int) (stretch (j : Int) es))
    (himage : before (stretch (j : Int) es') = before (stretch (j : Int) es)) :
    CallOk new db s' es' j where
  begun := by rw [hbegins, hphase, h.begun]
  finished := by rw [hfin, hphase, h.finished]
  image := by rw [himage, hphase, h.image]
  started := by
    rw [hphase, hold]
    intro hne
    obtain ⟨hread, hin, hrest⟩ := h.started hne
    exact ⟨hread, Nat.le_trans hin hlen, hrest⟩
  slotOk := by rw [hslot, hphase, h.slotOk]

theorem begins_append_of_not_begin {e : Event Int RoomRecord} (he : e.isBegin = false) :
    begins (es ++ [e]) = begins es := by
  rw [begins_append]
  cases e <;> simp_all [begins]

theorem current_append_of_not_begin {e : Event Int RoomRecord} (he : e.isBegin = false) :
    current (es ++ [e]) = current es := by
  rw [current, current, begins_append_of_not_begin he]

theorem WritersOk.not_current (h : WritersOk new db s ls es) (hl : s.latest = some id) {j : Nat}
    (hj : j ≠ id) : current es ≠ some (j : Int) := by
  rw [h.latest, hl]
  simpa using fun h => hj h.symm

theorem WritersOk.stretch_other (h : WritersOk new db s ls es) (hl : s.latest = some id)
    {e : Event Int RoomRecord} (he : e.isBegin = false) {j : Nat} (hj : j ≠ id) :
    stretch (j : Int) (es ++ [e]) = stretch (j : Int) es := by
  rw [stretch_append_singleton h.once he, if_neg (h.not_current hl hj)]

theorem WritersOk.stretch_own (h : WritersOk new db s ls es) (hl : s.latest = some id)
    {e : Event Int RoomRecord} (he : e.isBegin = false) :
    stretch (id : Int) (es ++ [e]) = stretch (id : Int) es ++ [e] := by
  have hcur : current es = some (id : Int) := by rw [h.latest, hl]; rfl
  rw [stretch_append_singleton h.once he, if_pos hcur]

/-- A `NEW` line changes nothing in any stretch. -/
theorem stretch_append_other (hnd : (begins es).Nodup) (i : Int) :
    UndoLog.finished i (stretch i (es ++ [.other])) = UndoLog.finished i (stretch i es) ∧
      before (stretch i (es ++ [.other])) = before (stretch i es) := by
  rw [stretch_append_singleton hnd rfl]
  split
  · rw [finished_append (begins_stretch i es), before_append (begins_stretch i es)]
    simp [UndoLog.finished, before]
  · exact ⟨rfl, rfl⟩

/-- The read of the old record. -/
theorem WritersOk.read (h : WritersOk new db s ls es) (hp : s.phase id = .idle)
    (hc : Callable s.db id (new id)) : WritersOk new db (advance new s id) ls es := by
  have hstep : advance new s id =
      { s with
        db := (dbReadRoomRaw s.db id).2
        phase := Function.update s.phase id .read
        old := Function.update s.old id (dbReadRoomRaw s.db id).1 } := by
    rw [advance, hp]
  rw [hstep]
  refine { log := h.log, reads := h.reads, keys := h.keys, once := h.once, latest := h.latest,
           call := fun j => ?_ }
  by_cases hj : j = id
  · subst hj
    have hcall := h.call j
    have hsame : s.db.recordAt j = db.recordAt j := by
      apply recordAt_congr
      rw [hcall.slotOk, hp]
      rfl
    have hread : (dbReadRoomRaw s.db j).1 = db.recordAt j := by rw [dbReadRoomRaw_fst, hsame]
    constructor
    · rw [hcall.begun, hp]
      simp [Phase.logged]
    · rw [hcall.finished, hp]
      simp
    · rw [hcall.image, hp]
      simp [Phase.imaged]
    · intro _
      refine ⟨by simpa using hread, by simpa using hc.inFile, hc.oneLine, ?_⟩
      rw [← hsame]
      exact hc.readsBack
    · simp only [dbReadRoomRaw_data]
      rw [hcall.slotOk, hp]
      simp [Phase.written]
  · exact (h.call j).congr (by simp [hj]) (by simp [hj]) (by simp) (by simp) Iff.rfl rfl rfl

/-- The `BEGIN` line. -/
theorem WritersOk.logBegin (h : WritersOk new db s ls es) (hp : s.phase id = .read) :
    WritersOk new db (advance new s id) (ls ++ [beginLine id]) (es ++ [.begin id]) := by
  have hstep : advance new s id =
      { s with
        db := walWrite s.db (beginLine id)
        phase := Function.update s.phase id .begun
        latest := some id } := by
    rw [advance, hp]
  have hnew : (id : Int) ∉ begins es := by
    rw [(h.call id).begun, hp]
    simp [Phase.logged]
  have hbegins : begins (es ++ [.begin (id : Int)]) = begins es ++ [(id : Int)] := by
    rw [begins_append]
    rfl
  rw [hstep]
  refine { log := h.log.write (beginLine_whole _),
           reads := h.reads.snoc fun junk => lineEvent_begin junk id,
           keys := ?_, once := ?_, latest := ?_, call := fun j => ?_ }
  · intro i hi
    rw [hbegins] at hi
    rcases List.mem_append.mp hi with hi | hi
    · exact h.keys i hi
    · exact ⟨id, List.mem_singleton.mp hi⟩
  · rw [hbegins, List.nodup_append]
    refine ⟨h.once, by simp, ?_⟩
    intro i hi i' hi' heq
    rw [List.mem_singleton.mp hi'] at heq
    exact hnew (heq ▸ hi)
  · rw [current, hbegins]
    simp
  · have hseg := stretch_append_begin hnew (j : Int)
    by_cases hj : j = id
    · subst hj
      have hcall := h.call j
      constructor
      · rw [hbegins]
        simp [Phase.logged]
      · rw [hseg, hcall.finished, hp]
        simp
      · rw [hseg, hcall.image, hp]
        simp [Phase.imaged]
      · intro _
        exact hcall.started (by simp [hp])
      · rw [walWrite_rooms, hcall.slotOk, hp]
        simp [Phase.written]
    · refine (h.call j).congr (by simp [hj]) rfl (Nat.le_refl _) rfl ?_ (by rw [hseg])
        (by rw [hseg])
      rw [hbegins]
      simpa using fun h => absurd h hj

/-- The `OLD` line, logged while the call's own `BEGIN` is the last. -/
theorem WritersOk.logOld (h : WritersOk new db s ls es) (hp : s.phase id = .begun)
    (hl : s.latest = some id) :
    WritersOk new db (advance new s id) (ls ++ [oldLine (s.old id)])
      (es ++ [.old (restoredRecord (oldLine (s.old id)))]) := by
  have hstep : advance new s id =
      { s with
        db := walWrite s.db (oldLine (s.old id))
        phase := Function.update s.phase id .oldLogged } := by
    rw [advance, hp]
  have hcall := h.call id
  obtain ⟨hread, hin, honeLine, hback⟩ := hcall.started (by simp [hp])
  have hwhole : WholeLine (oldLine (s.old id)) := by
    rw [hread]
    exact oldLine_whole hback
  rw [hstep]
  refine { log := h.log.write hwhole, reads := h.reads.snoc fun junk => lineEvent_old junk _,
           keys := by rw [begins_append_of_not_begin rfl]; exact h.keys,
           once := by rw [begins_append_of_not_begin rfl]; exact h.once,
           latest := by rw [current_append_of_not_begin rfl]; exact h.latest,
           call := fun j => ?_ }
  by_cases hj : j = id
  · subst hj
    have hseg := h.stretch_own hl (e := .old (restoredRecord (oldLine (s.old j)))) rfl
    constructor
    · rw [begins_append_of_not_begin rfl, hcall.begun, hp]
      simp [Phase.logged]
    · rw [hseg, finished_append (begins_stretch _ _), hcall.finished, hp]
      simp [UndoLog.finished]
    · rw [hseg, before_append (begins_stretch _ _), hcall.image, hp, hread]
      simp [Phase.imaged, before]
    · intro _
      exact ⟨hread, hin, honeLine, hback⟩
    · rw [walWrite_rooms, hcall.slotOk, hp]
      simp [Phase.written]
  · have hseg := h.stretch_other hl (e := .old (restoredRecord (oldLine (s.old id)))) rfl hj
    exact (h.call j).congr (by simp [hj]) rfl (Nat.le_refl _) rfl
      (by rw [begins_append_of_not_begin rfl]) (by rw [hseg]) (by rw [hseg])

/-- The `NEW` line. -/
theorem WritersOk.logNew (h : WritersOk new db s ls es) (hp : s.phase id = .oldLogged) :
    WritersOk new db (advance new s id) (ls ++ [newLine (new id)]) (es ++ [.other]) := by
  have hstep : advance new s id =
      { s with
        db := walWrite s.db (newLine (new id))
        phase := Function.update s.phase id .newLogged } := by
    rw [advance, hp]
  have hcall := h.call id
  have hstarted := hcall.started (by simp [hp])
  rw [hstep]
  refine { log := h.log.write (newLine_whole hstarted.2.2.1),
           reads := h.reads.snoc fun junk => lineEvent_new junk _,
           keys := by rw [begins_append_of_not_begin rfl]; exact h.keys,
           once := by rw [begins_append_of_not_begin rfl]; exact h.once,
           latest := by rw [current_append_of_not_begin rfl]; exact h.latest,
           call := fun j => ?_ }
  obtain ⟨hfin, himage⟩ := stretch_append_other h.once (j : Int)
  by_cases hj : j = id
  · subst hj
    constructor
    · rw [begins_append_of_not_begin rfl, hcall.begun, hp]
      simp [Phase.logged]
    · rw [hfin, hcall.finished, hp]
      simp
    · rw [himage, hcall.image, hp]
      simp [Phase.imaged]
    · intro _
      exact hstarted
    · rw [walWrite_rooms, hcall.slotOk, hp]
      simp [Phase.written]
  · exact (h.call j).congr (by simp [hj]) rfl (Nat.le_refl _) rfl
      (by rw [begins_append_of_not_begin rfl]) hfin himage

/-- The record write. -/
theorem WritersOk.store (h : WritersOk new db s ls es) (hp : s.phase id = .newLogged) :
    WritersOk new db (advance new s id) ls es := by
  have hstep : advance new s id =
      { s with
        db := storeRoom roomRecordSize s.db id (new id)
        phase := Function.update s.phase id .stored } := by
    rw [advance, hp]
  have hcall := h.call id
  obtain ⟨hread, hin, hrest⟩ := hcall.started (by simp [hp])
  have hdata : (storeRoom roomRecordSize s.db id (new id)).rooms.data =
      patch s.db.rooms.data (id * roomRecordSize) (new id).encode := by
    rw [storeRoom_data, encode_take_all (Nat.le_refl _)]
  have hlen : s.db.rooms.data.length ≤
      (storeRoom roomRecordSize s.db id (new id)).rooms.data.length := by
    rw [hdata, length_patch_of_le _ hin]
    exact Nat.le_max_left _ _
  rw [hstep]
  refine { log := h.log, reads := h.reads, keys := h.keys, once := h.once, latest := h.latest,
           call := fun j => ?_ }
  by_cases hj : j = id
  · subst hj
    constructor
    · rw [hcall.begun, hp]
      simp [Phase.logged]
    · rw [hcall.finished, hp]
      simp
    · rw [hcall.image, hp]
      simp [Phase.imaged]
    · intro _
      exact ⟨hread, Nat.le_trans hin hlen, hrest⟩
    · rw [hdata, slot_patch_record _ hin]
      simp [Phase.written]
  · refine (h.call j).congr (by simp [hj]) rfl hlen ?_ Iff.rfl rfl rfl
    rw [hdata]
    exact slot_patch_of_ne hin (Nat.le_of_eq (new id).encode_length) hj

/-- The `COMMIT` line, logged while the call's own `BEGIN` is the last. -/
theorem WritersOk.logCommit (h : WritersOk new db s ls es) (hp : s.phase id = .stored)
    (hl : s.latest = some id) :
    WritersOk new db (advance new s id) (ls ++ [commitLine id]) (es ++ [.finish id]) := by
  have hstep : advance new s id =
      { s with
        db := walWrite s.db (commitLine id)
        phase := Function.update s.phase id .done } := by
    rw [advance, hp]
  have hcall := h.call id
  rw [hstep]
  refine { log := h.log.write (commitLine_whole _),
           reads := h.reads.snoc fun junk => lineEvent_commit junk id,
           keys := by rw [begins_append_of_not_begin rfl]; exact h.keys,
           once := by rw [begins_append_of_not_begin rfl]; exact h.once,
           latest := by rw [current_append_of_not_begin rfl]; exact h.latest,
           call := fun j => ?_ }
  by_cases hj : j = id
  · subst hj
    have hseg := h.stretch_own hl (e := .finish (j : Int)) rfl
    constructor
    · rw [begins_append_of_not_begin rfl, hcall.begun, hp]
      simp [Phase.logged]
    · rw [hseg, finished_append (begins_stretch _ _), hcall.finished, hp]
      simp [UndoLog.finished]
    · rw [hseg, before_append (begins_stretch _ _), hcall.image, hp]
      simp [Phase.imaged]
    · intro _
      exact hcall.started (by simp [hp])
    · rw [walWrite_rooms, hcall.slotOk, hp]
      simp [Phase.written]
  · have hseg := h.stretch_other hl (e := .finish (id : Int)) rfl hj
    exact (h.call j).congr (by simp [hj]) rfl (Nat.le_refl _) rfl
      (by rw [begins_append_of_not_begin rfl]) (by rw [hseg]) (by rw [hseg])

/-- **One step of an undisturbed schedule** keeps the invariant. -/
theorem WritersOk.advance (h : WritersOk new db s ls es) (hc : StartsCallable new s id)
    (hu : Undisturbed s id) : ∃ ls' es', WritersOk new db (advance new s id) ls' es' := by
  cases hp : s.phase id with
  | idle => exact ⟨_, _, h.read hp (hc hp)⟩
  | read => exact ⟨_, _, h.logBegin hp⟩
  | begun => exact ⟨_, _, h.logOld hp (hu (Or.inl hp))⟩
  | oldLogged => exact ⟨_, _, h.logNew hp⟩
  | newLogged => exact ⟨_, _, h.store hp⟩
  | stored => exact ⟨_, _, h.logCommit hp (hu (Or.inr hp))⟩
  | done =>
      refine ⟨ls, es, ?_⟩
      rw [EchoLink.advance, hp]
      exact h

/-! ### Whole schedules -/

/-- Every step is one the callers can make, and undisturbed. -/
def UndisturbedStep (new : Nat → RoomRecord) (s : Writers) (id : Nat) : Prop :=
  StartsCallable new s id ∧ Undisturbed s id

theorem run_advances (s : Writers) (ids : List Nat) :
    run (advances new) s ids = some (schedule new s ids) := by
  induction ids generalizing s with
  | nil => rfl
  | cons id ids ih => exact ih (EchoLink.advance new s id)

theorem WritersOk.schedule {ids : List Nat} (h : WritersOk new db s ls es)
    (hall : Along (advances new) (UndisturbedStep new) s ids) :
    ∃ ls' es', WritersOk new db (schedule new s ids) ls' es' := by
  have hstep : ∀ s id, (∃ ls es, WritersOk new db s ls es) → UndisturbedStep new s id →
      ∃ s', advances new s id = some s' ∧ ∃ ls es, WritersOk new db s' ls es := by
    rintro s id ⟨ls, es, hs⟩ hP
    exact ⟨_, rfl, hs.advance hP.1 hP.2⟩
  obtain ⟨s', hrun, hok⟩ := run_invariant hstep ⟨ls, es, h⟩ hall
  rw [run_advances, Option.some.injEq] at hrun
  rwa [hrun]

/-- The invariant says what recovery does to each record. -/
theorem WritersOk.recovered (h : WritersOk new db s ls es) (hlines : ls.length < 512)
    (junk : Nat → Int) : Recovered new db s junk := by
  have hread : walLines { data := s.db.wal.data, pos := 0 } = ls := by
    rw [walLines, h.log.lines, List.take_of_length_le (by omega)]
  have hrooms : (restart junk s.db).rooms = restoreAll (undo es) { data := s.db.rooms.data, pos := 0 } := by
    rw [restart, fileDbInit, walRecover_rooms, hread, h.reads]
  have hkeys : KeysInFile (undo es) s.db.rooms.data := by
    intro w hw
    have hbegun := undo_fst_mem_begins hw
    obtain ⟨id, hid⟩ := h.keys w.1 hbegun
    rw [hid, (h.call id).begun] at hbegun
    have hne : s.phase id ≠ .idle := by
      intro hidle
      simp [hidle, Phase.logged] at hbegun
    exact ⟨id, hid, ((h.call id).started hne).2.1⟩
  have hnodup : ((undo es).map Prod.fst).Nodup := h.once.sublist (undo_keys_sublist es)
  intro id
  have hcall := h.call id
  have hmem := fun r => mem_undo_iff h.once (i := (id : Int)) (r := r)
  by_cases himaged : (s.phase id).imaged = true ∧ s.phase id ≠ .done
  · -- cut off after its `OLD` line: recovery restores the image
    obtain ⟨himaged, hdone⟩ := himaged
    have hlogged : (s.phase id).logged = true := by
      cases hp : s.phase id <;> simp_all [Phase.imaged, Phase.logged]
    have hstarted : s.phase id ≠ .idle := by
      intro hidle
      simp [hidle, Phase.imaged] at himaged
    have hundo : ((id : Int), restoredRecord (oldLine (db.recordAt id))) ∈ undo es := by
      rw [hmem, hcall.begun, hcall.finished, hcall.image]
      simp [hlogged, hdone, himaged]
    have hslot := restoreAll_slot_of_mem (f := { data := s.db.rooms.data, pos := 0 }) hkeys hnodup
      hundo
    rw [← hrooms] at hslot
    rw [if_neg hdone, recordAt_of_slot hslot]
    exact Kept.restored (hcall.started hstarted).2.2.2
  · -- nothing to restore: the slot stays as the call left it
    have hundo : (id : Int) ∉ (undo es).map Prod.fst := by
      intro hin
      obtain ⟨⟨i, r⟩, hw, rfl⟩ := List.mem_map.mp hin
      obtain ⟨-, hfin, himage⟩ := (hmem r).mp hw
      rw [hcall.finished] at hfin
      rw [hcall.image] at himage
      cases hp : s.phase id <;> simp_all [Phase.imaged]
    have hslot := restoreAll_slot_of_not_mem (f := { data := s.db.rooms.data, pos := 0 }) hkeys
      hundo
    rw [← hrooms] at hslot
    change slot roomRecordSize _ id = slot roomRecordSize s.db.rooms.data id at hslot
    rw [hcall.slotOk] at hslot
    by_cases hdone : s.phase id = .done
    · rw [hdone] at hslot
      rw [if_pos hdone, recordAt_of_slot hslot]
      rfl
    · have hwritten : (s.phase id).written = false := by
        cases hp : s.phase id <;> simp_all [Phase.imaged, Phase.written]
      rw [hwritten] at hslot
      have hsame : (restart junk s.db).recordAt id = db.recordAt id := recordAt_congr hslot
      rw [if_neg hdone, hsame]
      exact Kept.refl _

/-- **Recovery of interleaved calls.**  A crash after any schedule whose `OLD`
and `COMMIT` lines are each written while their own `BEGIN` is the last one
leaves every record as its own `COMMIT` line decides. -/
theorem interleaved_recovered (new : Nat → RoomRecord) (db : FileDb) (ids : List Nat)
    (junk : Nat → Int) (hlog : db.wal = { data := [], pos := 0 })
    (hall : Along (advances new) (UndisturbedStep new) (Writers.start db) ids)
    (hlines : (CText.lines (schedule new (Writers.start db) ids).db.wal.data).length < 512) :
    Recovered new db (schedule new (Writers.start db) ids) junk := by
  obtain ⟨ls, es, hok⟩ := (WritersOk.start new hlog).schedule hall
  rw [hok.log.lines] at hlines
  exact hok.recovered hlines junk

/-! ### Concrete schedules -/

/-- The records of two rooms that are created at the same time. -/
def twoRooms (id : Nat) : RoomRecord := sampleRecord (Int32.ofNat id) (ascii "room") (ascii "pass")

/-- The second room is created as soon as the first record is in the file. -/
theorem secondRoom_callable {db : FileDb} (h : db.rooms.data.length = roomRecordSize) :
    Callable db 1 (twoRooms 1) where
  inFile := by rw [h]; decide
  oneLine := ⟨by decide, by decide⟩
  readsBack := by
    have hnone : db.recordAt 1 = none := by
      rw [FileDb.recordAt, slot_eq_none (by rw [h]; decide)]
      rfl
    simp [hnone]

/-- The second call reads before the first commits and begins after it. -/
theorem overlappingCalls_recovered :
    Recovered twoRooms emptyDb
      (schedule twoRooms (Writers.start emptyDb) [0, 0, 0, 0, 0, 1, 0, 1, 1]) (fun _ => 0) := by
  have hlen : (schedule twoRooms (Writers.start emptyDb) [0, 0, 0, 0, 0]).db.rooms.data.length =
      roomRecordSize := by decide +kernel
  have hsteps : Along (advances twoRooms) (UndisturbedStep twoRooms) (Writers.start emptyDb)
      [0, 0, 0, 0, 0, 1, 0, 1, 1] := by
    simp only [Along, advances, Option.some.injEq, forall_eq']
    exact ⟨⟨fun _ => createCall_callable, by decide⟩, ⟨by nofun, by decide⟩,
      ⟨by nofun, by decide⟩, ⟨by nofun, by decide⟩, ⟨by nofun, by decide⟩,
      ⟨fun _ => secondRoom_callable hlen, by decide⟩, ⟨by nofun, by decide⟩,
      ⟨by nofun, by decide⟩, ⟨by nofun, by decide⟩, trivial⟩
  exact interleaved_recovered twoRooms emptyDb [0, 0, 0, 0, 0, 1, 0, 1, 1] (fun _ => 0) rfl hsteps
    (by decide +kernel)

/-- The second call begins before the first commits: recovery does not find
the `COMMIT` of the first and deletes its record. -/
theorem interleavedCommit_undone :
    ¬ ∀ (new : Nat → RoomRecord) (db : FileDb) (ids : List Nat) (junk : Nat → Int),
      db.wal = { data := [], pos := 0 } →
      Along (advances new) (StartsCallable new) (Writers.start db) ids →
      (CText.lines (schedule new (Writers.start db) ids).db.wal.data).length < 512 →
      Recovered new db (schedule new (Writers.start db) ids) junk := by
  intro hall
  have hlen : (schedule twoRooms (Writers.start emptyDb) [0, 0, 0, 0, 0]).db.rooms.data.length =
      roomRecordSize := by decide +kernel
  have hsteps : Along (advances twoRooms) (StartsCallable twoRooms) (Writers.start emptyDb)
      [0, 0, 0, 0, 0, 1, 1, 0] := by
    simp only [Along, advances, Option.some.injEq, forall_eq']
    exact ⟨fun _ => createCall_callable, by nofun, by nofun, by nofun, by nofun,
      fun _ => secondRoom_callable hlen, by nofun, by nofun, trivial⟩
  have hkept := hall twoRooms emptyDb [0, 0, 0, 0, 0, 1, 1, 0] (fun _ => 0) rfl hsteps
    (by decide +kernel) 0
  rw [if_pos (by decide)] at hkept
  exact absurd hkept (by decide +kernel)

end EchoLink
